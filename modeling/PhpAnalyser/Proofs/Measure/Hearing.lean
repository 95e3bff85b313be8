import PhpAnalyser.Proofs.Measure.Filtering
/-!
What is heard of an analyzer. Visits are nested, and each ends as it has started; they are made of
what the filter accepts and of the members of the types among it. An analyzer that has measured is not
heard again.
-/
namespace PhpAnalyser

namespace Event

def Names (e : Event) (kind : EntityKind) (name : String) : Prop :=
  e = startVisit kind name ∨ e = endVisit kind name

/-- Each visit ends as it has started, with nested visits between, and all of them may be made. -/
inductive Nested (may : EntityKind → String → Prop) : List Event → Prop
  | nil : Nested may []
  | visit {kind : EntityKind} {name : String} {during behind : List Event} : may kind name →
      Nested may during → Nested may behind →
      Nested may (startVisit kind name :: during ++ endVisit kind name :: behind)

namespace Nested

variable {may : EntityKind → String → Prop} {l l' : List Event}

theorem append (first : Nested may l) (second : Nested may l') : Nested may (l ++ l') := by
  induction first with
  | nil => exact second
  | @visit kind name during behind allowed inside _ _ ih =>
    rw [List.append_assoc]
    exact .visit allowed inside ih

theorem flatMap {α : Type} {xs : List α} {heard : α → List Event}
    (each : ∀ x ∈ xs, Nested may (heard x)) : Nested may (xs.flatMap heard) := by
  induction xs with
  | nil => exact .nil
  | cons x xs ih =>
    rw [List.flatMap_cons]
    exact (each x List.mem_cons_self).append (ih fun y there => each y (List.mem_cons_of_mem x there))

theorem of_visit {kind : EntityKind} {name : String} (allowed : may kind name)
    (inside : Nested may l) : Nested may (Event.visit kind name l) := .visit allowed inside .nil

/-- Nothing is named but in visits that may be made. -/
theorem names (nested : Nested may l) {e : Event} (listed : e ∈ l) {kind : EntityKind} {name : String}
    (named : e.Names kind name) : may kind name := by
  induction nested with
  | nil => cases listed
  | @visit kind' name' during behind allowed _ _ first second =>
    rcases List.mem_append.mp listed with here | here <;> rcases List.mem_cons.mp here with rfl | there
    · obtain same | same := named <;> cases same
      exact allowed
    · exact first there
    · obtain same | same := named <;> cases same
      exact allowed
    · exact second there

end Nested

end Event

variable (f : Filter) (m : CodeModel)

def Filter.ShowsType (kind : TypeKind) (name : String) : Prop :=
  ∃ d ∈ m.types, f.acceptsType m d = true ∧ d.kind = kind ∧ d.qualifiedName = name

def Filter.Shows : EntityKind → String → Prop
  | .package, name => ∃ p ∈ m.packages, f.acceptsPackage p = true ∧ p.name = name
  | .class_, name => f.ShowsType m .class_ name
  | .interface_, name => f.ShowsType m .interface_ name
  | .trait_, name => f.ShowsType m .trait_ name
  | .function, name => ∃ c ∈ m.callables, c.isMethod = false ∧ f.acceptsCallable m c = true ∧
      c.qualifiedName = name
  | .method, name => ∃ d ∈ m.types, f.acceptsType m d = true ∧
      ∃ c ∈ m.methodsOf d, c.qualifiedName = name
  | .property, name => ∃ d ∈ m.types, f.acceptsType m d = true ∧
      ∃ p ∈ m.propertiesOf d, p.name = name

variable {f m} {d : TypeDecl}

theorem Filter.shows_type {kind : TypeKind} {name : String} :
    f.Shows m kind.entityKind name ↔ f.ShowsType m kind name := by
  cases kind <;> rfl

namespace Event.Nested

theorem of_packages {heard : Package → List Event}
    (each : ∀ p ∈ m.packages, Nested (f.Shows m) (heard p)) :
    Nested (f.Shows m) ((f.packagesOf m).flatMap fun p => Event.package p (heard p)) := by
  refine .flatMap fun p listed => ?_
  obtain ⟨there, accepted⟩ := List.mem_filter.mp listed
  rw [Array.mem_toList_iff] at there
  exact .of_visit ⟨p, there, accepted, rfl⟩ (each p there)

theorem of_type (there : d ∈ m.types) (accepted : f.acceptsType m d = true) {l : List Event}
    (inside : Nested (f.Shows m) l) : Nested (f.Shows m) (Event.type d l) :=
  .of_visit (Filter.shows_type.mpr ⟨d, there, accepted, rfl, rfl⟩) inside

theorem of_methods (there : d ∈ m.types) (accepted : f.acceptsType m d = true) :
    Nested (f.Shows m) ((m.methodsOf d).flatMap Event.method) :=
  .flatMap fun c listed => .of_visit ⟨d, there, accepted, c, listed, rfl⟩ .nil

end Event.Nested

namespace CodeModel.Indexed

variable (indexed : m.Indexed)

include indexed

theorem nested_types {p : Package} (there : p ∈ m.packages) {heard : TypeDecl → List Event}
    (each : ∀ d ∈ m.types, f.acceptsType m d = true → Event.Nested (f.Shows m) (heard d)) :
    Event.Nested (f.Shows m) ((f.typesOf m p).flatMap heard) := by
  refine .flatMap fun d listed => ?_
  obtain ⟨here, accepted⟩ := List.mem_filter.mp listed
  rw [indexed.types_of there] at here
  exact each d (Array.mem_toList_iff.mp (List.mem_filter.mp here).1) accepted

theorem nested_functions {p : Package} (there : p ∈ m.packages) :
    Event.Nested (f.Shows m) ((f.functionsOf m p).flatMap Event.function) := by
  refine .flatMap fun c listed => ?_
  obtain ⟨here, accepted⟩ := List.mem_filter.mp listed
  rw [indexed.functions_of there] at here
  obtain ⟨known, kind⟩ := List.mem_filter.mp here
  have plain := is_method_of_function (of_decide_eq_true kind)
  exact .of_visit ⟨c, Array.mem_toList_iff.mp known, plain, accepted, rfl⟩ .nil

/-- The members of a type are its methods and properties. -/
theorem nested_members (there : d ∈ m.types) (accepted : f.acceptsType m d = true) :
    Event.Nested (f.Shows m) ((m.membersOf d).flatMap Hierarchy.memberEvents) := by
  have known := Array.mem_toList_iff.mpr there
  refine .flatMap fun entity listed => ?_
  obtain ⟨member, here, found⟩ := List.mem_filterMap.mp listed
  cases member with
  | method id =>
    obtain ⟨c, is, rfl⟩ := Option.map_eq_some_iff.mp found
    have own : id ∈ d.methods := by
      rw [← indexed.owned.member_methods d known]
      exact List.mem_filterMap.mpr ⟨_, here, rfl⟩
    exact .of_visit ⟨d, there, accepted, c, List.mem_filterMap.mpr ⟨id, own, is⟩, rfl⟩ .nil
  | property id =>
    obtain ⟨p, is, rfl⟩ := Option.map_eq_some_iff.mp found
    have own : id ∈ d.properties := by
      rw [← indexed.owned.member_properties d known]
      exact List.mem_filterMap.mpr ⟨_, here, rfl⟩
    exact .of_visit ⟨d, there, accepted, p, List.mem_filterMap.mpr ⟨id, own, is⟩, rfl⟩ .nil

/-- Packages with their types, methods and functions. -/
theorem nested_walk : Event.Nested (f.Shows m) ((f.packagesOf m).flatMap fun p =>
    Event.package p <|
      ((f.typesOf m p).flatMap fun d => Event.type d ((m.methodsOf d).flatMap Event.method)) ++
        (f.functionsOf m p).flatMap Event.function) :=
  Event.Nested.of_packages fun _ there =>
    (indexed.nested_types there fun _ known accepted =>
      Event.Nested.of_type known accepted (.of_methods known accepted)).append
        (indexed.nested_functions there)

theorem nested_classes : Event.Nested (f.Shows m) ((f.packagesOf m).flatMap fun p =>
    Event.package p ((ClassLevel.classesOf m f p).flatMap fun d => Event.type d [])) := by
  refine Event.Nested.of_packages fun p there => .flatMap fun d listed => ?_
  obtain ⟨here, accepted⟩ := List.mem_filter.mp (List.mem_filter.mp listed).1
  rw [indexed.types_of there] at here
  have known := Array.mem_toList_iff.mp (List.mem_filter.mp here).1
  exact .of_type known accepted .nil

theorem nested_hierarchy : Event.Nested (f.Shows m) ((f.packagesOf m).flatMap fun p =>
    Event.package p <| (f.typesOf m p).flatMap (Hierarchy.typeEvents m) ++
      (f.functionsOf m p).flatMap Event.function) := by
  refine Event.Nested.of_packages fun p there => .append ?_ (indexed.nested_functions there)
  refine indexed.nested_types there fun d known accepted => ?_
  rw [Hierarchy.typeEvents]
  split
  · exact .of_type known accepted (indexed.nested_members known accepted)
  · exact .of_type known accepted (.of_methods known accepted)
  · exact .nil

/-- The measurement of each analyzer that comes with the program is a nest of visits. -/
theorem nested_events {a : Analyzer} (listed : a ∈ Registry.builtin) (results : Results) :
    ∃ during, (a.measure m f results).events = Event.analysis during ∧
      Event.Nested (f.Shows m) during := by
  rcases Registry.builtin_cases listed with rfl | rfl | rfl | rfl
  · exact ⟨_, rfl, indexed.nested_classes⟩
  · exact ⟨_, rfl, indexed.nested_walk⟩
  · exact ⟨_, rfl, indexed.nested_hierarchy⟩
  · exact ⟨_, rfl, indexed.nested_walk⟩

end CodeModel.Indexed

/-- An analyzer starts, visits what a filter shows, and ends. Nothing that is rejected is named. -/
structure Event.Heard (m : CodeModel) (f : Filter) (events : List Event) : Prop where
  framed : ∃ during, events = startAnalyzer :: during ++ [endAnalyzer] ∧
    Nested (f.Shows m) during
  packages : ∀ p ∈ m.packages, f.acceptsPackage p = false →
    ∀ e ∈ events, ¬e.Names .package p.name
  types : ∀ d ∈ m.types, f.acceptsType m d = false →
    ∀ kind : TypeKind, ∀ e ∈ events, ¬e.Names kind.entityKind d.qualifiedName
  functions : ∀ c ∈ m.callables, c.isMethod = false → f.acceptsCallable m c = false →
    ∀ e ∈ events, ¬e.Names .function c.qualifiedName

/-- Names lead to one declaration, so that no accepted one has the name of one that is rejected. -/
theorem CodeModel.Indexed.heard (indexed : m.Indexed) {events during : List Event}
    (framed : events = Event.analysis during) (nested : Event.Nested (f.Shows m) during) :
    Event.Heard m f events := by
  have shown {e : Event} (listed : e ∈ events) {kind : EntityKind} {name : String}
      (named : e.Names kind name) : f.Shows m kind name := by
    rw [framed, Event.analysis, List.cons_append, List.mem_cons, List.mem_append,
      List.mem_singleton] at listed
    obtain rfl | inside | rfl := listed
    · obtain same | same := named <;> cases same
    · exact nested.names inside named
    · obtain same | same := named <;> cases same
  refine ⟨⟨during, framed, nested⟩, fun p there rejected e listed named => ?_,
    fun d there rejected kind e listed named => ?_,
    fun c there plain rejected e listed named => ?_⟩
  · obtain ⟨q, -, accepted, name⟩ := shown listed named
    have same : f.acceptsPackage q = f.acceptsPackage p := by
      rw [Filter.acceptsPackage, Filter.acceptsPackage, name]
    rw [same, rejected] at accepted
    cases accepted
  · obtain ⟨d', there', accepted, -, name⟩ := Filter.shows_type.mp (shown listed named)
    rw [indexed.eq_of_type_name there' there name, rejected] at accepted
    cases accepted
  · obtain ⟨c', there', plain', accepted, name⟩ := shown listed named
    rw [indexed.eq_of_function_name there' there plain' plain name, rejected] at accepted
    cases accepted

/-- A visit starts of each accepted package, of each accepted type of some kinds, and of each
accepted function if functions are visited. -/
structure Event.Announces (m : CodeModel) (f : Filter) (kinds : List TypeKind) (functions : Bool)
    (events : List Event) : Prop where
  packages : ∀ p ∈ m.packages, f.acceptsPackage p = true → startVisit .package p.name ∈ events
  types : ∀ d ∈ m.types, f.acceptsType m d = true → d.kind ∈ kinds →
    startVisit d.kind.entityKind d.qualifiedName ∈ events
  functions : functions = true → ∀ c ∈ m.callables, c.isMethod = false →
    f.acceptsCallable m c = true → startVisit .function c.qualifiedName ∈ events

namespace CodeModel.Indexed

variable (indexed : m.Indexed)

include indexed

/-- A walk over the packages announces what is announced of the content of each of them. -/
theorem announces_packages {kinds : List TypeKind} {functions : Bool} {heard : Package → List Event}
    (types : ∀ p, ∀ d ∈ f.typesOf m p, d.kind ∈ kinds →
      Event.startVisit d.kind.entityKind d.qualifiedName ∈ heard p)
    (called : functions = true → ∀ p, ∀ c ∈ f.functionsOf m p,
      Event.startVisit .function c.qualifiedName ∈ heard p) :
    Event.Announces m f kinds functions
      (Event.analysis ((f.packagesOf m).flatMap fun p => Event.package p (heard p))) := by
  have heard_in {e : Event} {p : Package} (listed : p ∈ f.packagesOf m)
      (inside : e ∈ Event.package p (heard p)) :
      e ∈ Event.analysis ((f.packagesOf m).flatMap fun p => Event.package p (heard p)) := by
    rw [Event.analysis, List.cons_append, List.mem_cons, List.mem_append, List.mem_flatMap]
    exact .inr (.inl ⟨p, listed, inside⟩)
  have during {e : Event} {p : Package} (there : e ∈ heard p) :
      e ∈ Event.package p (heard p) := by
    simp [Event.package, Event.visit, there]
  constructor
  case packages =>
    intro p there accepted
    have listed : p ∈ f.packagesOf m :=
      List.mem_filter.mpr ⟨Array.mem_toList_iff.mpr there, accepted⟩
    exact heard_in listed (by simp [Event.package, Event.visit])
  case types =>
    intro d there accepted kind
    have shown := (Filter.accepted_types_perm indexed).mem_iff.mpr
      (Filter.mem_accepted_types.mpr ⟨there, accepted⟩)
    obtain ⟨p, listed, inside⟩ := List.mem_flatMap.mp shown
    exact heard_in listed (during (types p d inside kind))
  case functions =>
    intro visited c there plain accepted
    have shown := (Filter.accepted_functions_perm indexed).mem_iff.mpr
      (Filter.mem_accepted_functions.mpr ⟨there, plain, accepted⟩)
    obtain ⟨p, listed, inside⟩ := List.mem_flatMap.mp shown
    exact heard_in listed (during (called visited p c inside))

/-- The measure of the classes announces these, in the packages that it looks through. -/
theorem class_level_announces : Event.Announces m f [.class_] false (ClassLevel.events m f) := by
  refine indexed.announces_packages (fun p d listed kind => ?_) (fun visited => nomatch visited)
  have isClass : d ∈ ClassLevel.classesOf m f p :=
    List.mem_filter.mpr ⟨listed, decide_eq_true (List.mem_singleton.mp kind)⟩
  exact List.mem_flatMap.mpr ⟨d, isClass, by simp [Event.type, Event.visit]⟩

/-- The counts of nodes and of decisions announce all types and functions. -/
theorem walk_announces {a : Analyzer} (counts : a = Complexity.analyzer ∨ a = NodeCount.analyzer)
    (results : Results) : Event.Announces m f [.class_, .interface_, .trait_] true
      (a.measure m f results).events := by
  have walk : Event.Announces m f [.class_, .interface_, .trait_] true
      (Event.analysis ((f.packagesOf m).flatMap fun p => Event.package p <|
        ((f.typesOf m p).flatMap fun d => Event.type d ((m.methodsOf d).flatMap Event.method)) ++
          (f.functionsOf m p).flatMap Event.function)) := by
    refine indexed.announces_packages (fun p d listed _ => ?_) (fun _ p c listed => ?_)
    · exact List.mem_append_left _
        (List.mem_flatMap.mpr ⟨d, listed, by simp [Event.type, Event.visit]⟩)
    · exact List.mem_append_right _
        (List.mem_flatMap.mpr ⟨c, listed, by simp [Event.function, Event.visit]⟩)
  rcases counts with rfl | rfl
  · exact walk
  · exact walk

/-- The measure of the hierarchy announces all functions, and all types but the traits. -/
theorem hierarchy_announces :
    Event.Announces m f [.class_, .interface_] true (Hierarchy.events m f) := by
  refine indexed.announces_packages (fun p d listed kind => ?_) (fun _ p c listed => ?_)
  · have start : Event.startVisit d.kind.entityKind d.qualifiedName ∈ Hierarchy.typeEvents m d := by
      cases known : d.kind <;>
        simp_all [Hierarchy.typeEvents, Event.type, Event.visit, TypeKind.entityKind]
    exact List.mem_append_left _ (List.mem_flatMap.mpr ⟨d, listed, start⟩)
  · exact List.mem_append_right _
      (List.mem_flatMap.mpr ⟨c, listed, by simp [Event.function, Event.visit]⟩)

end CodeModel.Indexed

namespace Instrument

inductive Later (i : Instrument) : Instrument → Prop
  | same : Later i i
  | analyzed {j : Instrument} (m : CodeModel) (finished : List Instrument) :
      Later i j → Later i (j.analyze m finished).1
  | filtered {j : Instrument} (f : Filter) : Later i j → Later i (j.withFilter f)

theorem analyze_done {i : Instrument} (done : i.findings ≠ none) (m : CodeModel)
    (finished : List Instrument) : i.analyze m finished = (i, []) := by
  unfold analyze
  split
  · rfl
  next none => exact absurd none done

theorem findings_of_filter (i : Instrument) (f : Filter) : (i.withFilter f).findings = i.findings := by
  unfold withFilter
  split <;> rfl

theorem analyzer_of_filter (i : Instrument) (f : Filter) : (i.withFilter f).analyzer = i.analyzer := by
  unfold withFilter
  split <;> rfl

/-- What was found stays, whatever comes later. -/
theorem Later.kept {i j : Instrument} (later : i.Later j) (done : i.findings ≠ none) :
    j.findings = i.findings ∧ j.analyzer = i.analyzer := by
  induction later with
  | same => exact ⟨rfl, rfl⟩
  | @analyzed j m finished _ ih =>
    rw [analyze_done (ih.1 ▸ done)]
    exact ih
  | @filtered j f _ ih =>
    rw [findings_of_filter, analyzer_of_filter]
    exact ih

/-- An instrument that has measured is not heard again, and its metrics stay. -/
theorem Later.silent {i j : Instrument} (later : i.Later j) (done : i.findings ≠ none) (m : CodeModel)
    (finished : List Instrument) : (j.analyze m finished).2 = [] ∧
      (j.analyze m finished).1.nodes = i.nodes ∧ (j.analyze m finished).1.project = i.project := by
  obtain ⟨findings, analyzer⟩ := later.kept done
  rw [analyze_done (findings ▸ done)]
  exact ⟨rfl, by rw [nodes, nodes, findings], by rw [project, project, findings, analyzer]⟩

/-- The first measurement is made under the filter that was set. -/
theorem analyze_fresh (a : Analyzer) (filtered : a.capabilities.filtered = true) (f : Filter)
    (m : CodeModel) (finished : List Instrument) :
    ((ofAnalyzer a).withFilter f).analyze m finished =
      (⟨a, f, some (a.measure m f (results finished))⟩,
        (a.measure m f (results finished)).events) := by
  rw [withFilter, if_pos (show (ofAnalyzer a).analyzer.capabilities.filtered = true from filtered)]
  rfl

end Instrument

namespace Assembly

/-- What is heard of the first measurement of an analyzer is a nest of visits, none of which is of
anything that is rejected. Nothing is heard of those that come later, whatever they measure, and the
metrics stay. -/
theorem heard_once (calls : List Added) (f : Filter) {a : Analyzer} (listed : a ∈ Registry.builtin)
    (given : List Instrument) :
    ∃ i events,
      ((Instrument.ofAnalyzer a).withFilter f).analyze (finished calls) given = (i, events) ∧
      Event.Heard (finished calls) f events ∧
      ∀ j, i.Later j → ∀ (m : CodeModel) (given' : List Instrument),
        (j.analyze m given').2 = [] ∧ (j.analyze m given').1.nodes = i.nodes ∧
          (j.analyze m given').1.project = i.project := by
  have indexed := (measurable calls).indexed
  have filtered := (Registry.builtin_shaped a listed).2
  obtain ⟨during, framed, nested⟩ :=
    indexed.nested_events (f := f) listed (Instrument.results given)
  exact ⟨_, _, Instrument.analyze_fresh a filtered f (finished calls) given,
    indexed.heard framed nested, fun j later => later.silent (Option.some_ne_none _)⟩

/-- Nothing is heard of a class in a package that is left out, and nothing at all later. -/
theorem heard_once_without_parent : Hierarchy.analyzer ∈ Registry.builtin ∧
    ∃ p ∈ (finished [heirFile]).types, Filter.acceptsType ⟨["A"], []⟩ (finished [heirFile]) p = false ∧
      ∃ i events, ((Instrument.ofAnalyzer Hierarchy.analyzer).withFilter ⟨["A"], []⟩).analyze
          (finished [heirFile]) [] = (i, events) ∧
        (∀ e ∈ events, ¬e.Names .class_ p.qualifiedName) ∧
        (i.analyze (finished [heirFile]) []).2 = [] := by
  obtain ⟨d, -, -, -, -, p, there, -, rejected⟩ := heir_apart
  obtain ⟨i, events, first, heard, later⟩ :=
    heard_once [heirFile] ⟨["A"], []⟩ Registry.hierarchy_builtin []
  exact ⟨Registry.hierarchy_builtin, p, there, rejected, i, events, first,
    heard.types p there rejected .class_, (later i .same _ []).1⟩

end Assembly

end PhpAnalyser
