import Mathlib.Data.Set.Card
import Mathlib.Logic.Relation
import PhpAnalyser.Proofs.Measure.Agreement
/-!
Resolved parents as a graph. The climb from parent to parent ends, also where the parents form a
cycle, and meets each type above once; depths and visible properties are measured along it. The
leaves are the counted classes that no counted class extends. A counted class may extend something
else, such as an interface or a class that the filter leaves out, and what is reported as leaves
falls short of them by the number of these strangers.
-/
namespace PhpAnalyser

open Relation (TransGen)

theorem nodup_erase_dups {α : Type} [DecidableEq α] (l : List α) : l.eraseDups.Nodup := by
  induction size : l.length using Nat.strong_induction_on generalizing l with
  | _ n ih =>
    cases l with
    | nil => exact List.nodup_nil
    | cons a rest =>
      have shorter : (rest.filter fun b => !b == a).length < n :=
        size ▸ Nat.lt_succ_of_le (List.length_filter_le _ rest)
      rw [List.eraseDups_cons, List.nodup_cons]
      exact ⟨by simp [List.mem_eraseDups], ih _ shorter _ rfl⟩

namespace CodeModel

def HasParent (m : CodeModel) (t p : TypeDecl) : Prop := m.parentOf t = some p

abbrev Above (m : CodeModel) : TypeDecl → TypeDecl → Prop := TransGen m.HasParent

/-- A climb from parent to parent that ends where there is no parent, or one that was seen, with
the types that it meets. -/
inductive Climbs (m : CodeModel) : List Nat → TypeDecl → List TypeDecl → Prop
  | top {seen : List Nat} {t : TypeDecl} : m.parentOf t = none → Climbs m seen t []
  | again {seen : List Nat} {t p : TypeDecl} : m.HasParent t p → p.id ∈ seen → Climbs m seen t []
  | up {seen : List Nat} {t p : TypeDecl} {above : List TypeDecl} : m.HasParent t p → p.id ∉ seen →
      Climbs m (p.id :: seen) p above → Climbs m seen t (p :: above)

/-- A name is that of a property of a type, or of a visible one of a type above it. -/
def Shows (m : CodeModel) (t : TypeDecl) (name : String) : Prop :=
  (∃ p ∈ m.properties, p.owner = t.id ∧ p.name = name) ∨
    ∃ a, m.Above t a ∧ ∃ p ∈ m.properties, p.owner = a.id ∧ p.visibility ≠ .private_ ∧ p.name = name

variable {m : CodeModel} {seen : List Nat} {t p : TypeDecl} {l : List TypeDecl}

theorem Climbs.unique (climb : m.Climbs seen t l) {l' : List TypeDecl}
    (other : m.Climbs seen t l') : l = l' := by
  induction climb generalizing l' with
  | top none =>
    cases other with
    | top _ => rfl
    | again found _ | up found _ _ => cases none.symm.trans found
  | again found met =>
    cases other with
    | top none => cases none.symm.trans found
    | again _ _ => rfl
    | up found' new _ =>
      cases found.symm.trans found'
      exact absurd met new
  | up found new _ ih =>
    cases other with
    | top none => cases none.symm.trans found
    | again found' met =>
      cases found.symm.trans found'
      exact absurd met new
    | up found' _ rest =>
      cases found.symm.trans found'
      rw [ih rest]

/-- All that a climb meets is above its start. -/
theorem Climbs.above (climb : m.Climbs seen t l) : ∀ p ∈ l, m.Above t p := by
  induction climb with
  | top _ | again _ _ => simp
  | up found _ _ ih =>
    intro p listed
    rcases List.mem_cons.mp listed with rfl | listed
    · exact .single found
    · exact .head found (ih p listed)

/-- A climb meets nothing that was seen, and nothing twice. -/
theorem Climbs.apart (climb : m.Climbs seen t l) :
    (∀ p ∈ l, p.id ∉ seen) ∧ (l.map (·.id)).Nodup := by
  induction climb with
  | top _ | again _ _ => simp
  | up found new _ ih =>
    obtain ⟨unseen, once⟩ := ih
    refine ⟨fun q listed => ?_, ?_⟩
    · rcases List.mem_cons.mp listed with rfl | listed
      · exact new
      · exact fun met => unseen q listed (List.mem_cons_of_mem _ met)
    · rw [List.map_cons, List.nodup_cons]
      refine ⟨fun again => ?_, once⟩
      obtain ⟨q, listed, same⟩ := List.mem_map.mp again
      exact unseen q listed (same ▸ List.mem_cons_self)

/-- Whatever stands directly above a type of a climb was seen, or is met. -/
theorem Climbs.closed (climb : m.Climbs seen t l) {x y : TypeDecl} (listed : x ∈ t :: l)
    (found : m.HasParent x y) : y.id ∈ seen ∨ y.id ∈ l.map (·.id) := by
  induction climb with
  | top none =>
    rw [List.mem_singleton.mp listed] at found
    cases none.symm.trans found
  | again found' met =>
    rw [List.mem_singleton.mp listed] at found
    cases found'.symm.trans found
    exact .inl met
  | up found' _ _ ih =>
    rw [List.map_cons, List.mem_cons]
    rcases List.mem_cons.mp listed with rfl | listed
    · cases found'.symm.trans found
      exact .inr (.inl rfl)
    · rcases ih listed with met | met
      · exact (List.mem_cons.mp met).elim (fun same => .inr (.inl same)) .inl
      · exact .inr (.inr met)

/-- A climb does not change if more was seen, as long as it is not above. -/
theorem Climbs.beside (climb : m.Climbs seen t l) {id : Nat}
    (apart : ∀ p, m.Above t p → p.id ≠ id) : m.Climbs (seen ++ [id]) t l := by
  induction climb with
  | top none => exact .top none
  | again found met => exact .again found (List.mem_append_left _ met)
  | up found new _ ih =>
    refine .up found ?_ (ih fun q above => apart q (.head found above))
    simpa [new] using apart _ (.single found)

namespace Measurable

variable (measurable : m.Measurable) (there : t ∈ m.types)
include measurable there

theorem has_parent_of_id (known : p ∈ m.types)
    (same : (m.parentOf t).map (·.id) = some p.id) : m.HasParent t p := by
  obtain ⟨q, found, id⟩ := Option.map_eq_some_iff.mp same
  rwa [← measurable.indexed.types_numbered.inj (measurable.parent_known there found) known id]

theorem above_known (above : m.Above t p) : p ∈ m.types := by
  induction above with
  | single found => exact measurable.parent_known there found
  | tail _ found ih => exact measurable.parent_known ih found

/-- With fuel for each type that was not seen, and one more, the climb comes to its end. -/
theorem climbs_within {fuel : Nat}
    (enough : (m.types.toList.filter (·.id ∉ seen)).length < fuel) :
    m.Climbs seen t (m.parentsWithin fuel seen t) := by
  induction fuel generalizing seen t with
  | zero => cases enough
  | succ fuel ih =>
    unfold parentsWithin
    cases found : m.parentOf t with
    | none => exact .top found
    | some p =>
      dsimp only
      split
      next met => exact .again found (by simpa using met)
      next new =>
        have new : p.id ∉ seen := by simpa using new
        have known := measurable.parent_known there found
        have fewer : (m.types.toList.filter (·.id ∉ p.id :: seen)).length <
            (m.types.toList.filter (·.id ∉ seen)).length := by
          have split : m.types.toList.filter (·.id ∉ p.id :: seen) =
              (m.types.toList.filter (·.id ∉ seen)).filter (·.id ≠ p.id) := by
            rw [List.filter_filter]
            exact List.filter_congr fun q _ => by simp
          rw [split, List.length_filter_lt_length_iff_exists]
          exact ⟨p, by simp [known, new], by simp⟩
        exact .up found new (ih known (by omega))

/-- The ancestors of a type are what a climb meets that has seen just the type itself. -/
theorem climbs_ancestors : m.Climbs [t.id] t (m.ancestors t) := by
  refine measurable.climbs_within there ?_
  rw [← Array.length_toList, List.length_filter_lt_length_iff_exists]
  exact ⟨t, Array.mem_toList_iff.mpr there, by simp⟩

theorem mem_ancestors : p ∈ m.ancestors t ↔ p ≠ t ∧ m.Above t p := by
  have climb := measurable.climbs_ancestors there
  constructor
  · intro listed
    exact ⟨fun same => climb.apart.1 p listed (by simp [same]), climb.above p listed⟩
  · rintro ⟨other, above⟩
    have numbered := measurable.indexed.types_numbered
    have step {x y : TypeDecl} (known : x ∈ m.types) (listed : x ∈ t :: m.ancestors t)
        (found : m.HasParent x y) : y ∈ t :: m.ancestors t := by
      have known := measurable.parent_known known found
      rcases climb.closed listed found with same | met
      · rw [numbered.inj known there (List.mem_singleton.mp same)]
        exact List.mem_cons_self
      · obtain ⟨q, met, same⟩ := List.mem_map.mp met
        rw [← numbered.inj (measurable.above_known there (climb.above q met)) known same]
        exact List.mem_cons_of_mem _ met
    have every {q : TypeDecl} (above : m.Above t q) : q ∈ t :: m.ancestors t := by
      induction above with
      | single found => exact step there List.mem_cons_self found
      | tail above found ih => exact step (measurable.above_known there above) ih found
    exact (List.mem_cons.mp (every above)).resolve_left other

/-- Off a cycle the ancestors of a type are its parent and the ancestors of that, which may well be
on a cycle. -/
theorem ancestors_cons (straight : ¬m.Above t t) (found : m.HasParent t p) :
    m.ancestors t = p :: m.ancestors p := by
  have known := measurable.parent_known there found
  have apart (q : TypeDecl) (above : m.Above t q) : q.id ≠ t.id := fun same =>
    straight <| measurable.indexed.types_numbered.inj (measurable.above_known there above) there
      same ▸ above
  have behind :=
    (measurable.climbs_ancestors known).beside fun q above => apart q (.head found above)
  refine (measurable.climbs_ancestors there).unique (.up found ?_ behind)
  simpa using apart p (.single found)

theorem depth_at_top (none : m.parentOf t = none) :
    m.inheritanceDepth t = if t.parent.isSome then 1 else 0 := by
  have alone : m.ancestors t = [] := (measurable.climbs_ancestors there).unique (.top none)
  rw [inheritanceDepth, alone]
  simp [none]

theorem depth_of_parent (straight : ¬m.Above t t) (found : m.HasParent t p) :
    m.inheritanceDepth t = m.inheritanceDepth p + 1 := by
  unfold inheritanceDepth
  dsimp only
  rw [measurable.ancestors_cons there straight found, List.length_cons, List.getLast?_cons,
    Option.getD_some, Nat.add_right_comm]

theorem mem_properties_of {q : Property} :
    q ∈ m.propertiesOf t ↔ q ∈ m.properties ∧ q.owner = t.id := by
  rw [measurable.indexed.properties_of there, List.mem_filter, Array.mem_toList_iff,
    decide_eq_true_eq]

theorem mem_property_names {name : String} : name ∈ m.propertyNames t ↔ m.Shows t name := by
  rw [propertyNames, List.mem_eraseDups, List.map_append, List.mem_append, List.mem_map,
    List.mem_map]
  constructor
  · rintro (⟨q, own, rfl⟩ | ⟨q, inherited, rfl⟩)
    · obtain ⟨declared, owner⟩ := (measurable.mem_properties_of there).mp own
      exact .inl ⟨q, declared, owner, rfl⟩
    · obtain ⟨listed, visible⟩ := List.mem_filter.mp inherited
      obtain ⟨a, ancestor, own⟩ := List.mem_flatMap.mp listed
      obtain ⟨-, above⟩ := (measurable.mem_ancestors there).mp ancestor
      obtain ⟨declared, owner⟩ :=
        (measurable.mem_properties_of (measurable.above_known there above)).mp own
      exact .inr ⟨a, above, q, declared, owner, of_decide_eq_true visible, rfl⟩
  · rintro (⟨q, declared, owner, rfl⟩ | ⟨a, above, q, declared, owner, visible, rfl⟩)
    · exact .inl ⟨q, (measurable.mem_properties_of there).mpr ⟨declared, owner⟩, rfl⟩
    · by_cases same : a = t
      -- On a cycle the properties of the type itself are among those above it.
      · exact .inl ⟨q, (measurable.mem_properties_of there).mpr ⟨declared, same ▸ owner⟩, rfl⟩
      · have known := measurable.above_known there above
        have own := (measurable.mem_properties_of known).mpr ⟨declared, owner⟩
        have ancestor := (measurable.mem_ancestors there).mpr ⟨same, above⟩
        exact .inr ⟨q, List.mem_filter.mpr
          ⟨List.mem_flatMap.mpr ⟨a, ancestor, own⟩, decide_eq_true visible⟩, rfl⟩

theorem length_property_names : (m.propertyNames t).length = {name | m.Shows t name}.ncard := by
  have names : {name | m.Shows t name} = ((m.propertyNames t).toFinset : Set String) := by
    ext name
    simp [measurable.mem_property_names there]
  have once : (m.propertyNames t).Nodup := nodup_erase_dups _
  rw [names, Set.ncard_coe_finset, List.toFinset_card_of_nodup once]

omit there in
theorem class_inheritance {f : Filter} (results : Results) (listed : t ∈ f.acceptedTypes m)
    (is_class : t.kind = .class_) :
    let metrics := (ClassLevel.analyzer.measure m f results).nodes.of t.entity
    SortedMap.find? metrics "dit" = some (.whole (m.inheritanceDepth t)) ∧
      SortedMap.find? metrics "varsi" = some (.whole (m.propertyNames t).length) := by
  dsimp only
  rw [measurable.class_level_of results listed is_class, ClassLevel.metrics, SortedMap.find_put,
    SortedMap.find_put, if_neg (by decide), if_neg (by decide),
    MetricMap.find_of_counts (by simp), MetricMap.find_of_counts (by simp)]
  exact ⟨rfl, rfl⟩

end Measurable

end CodeModel

/-- The climb from a type ends, also in or before a cycle, and it meets each of the other types
above once. The depth is none without a parent, one with a parent that is not declared, and one more
than that of the parent, unless the type is on a cycle. Of a class the names of its own properties
and of the visible ones above are counted, each once. -/
theorem Assembly.inheritance_measured (calls : List Added) {t : TypeDecl}
    (there : t ∈ (finished calls).types) :
    let m := finished calls
    m.Climbs [t.id] t (m.ancestors t) ∧
    (m.ancestors t).Nodup ∧
    (∀ p, p ∈ m.ancestors t ↔ p ≠ t ∧ m.Above t p) ∧
    (¬m.Above t t →
      (t.parent = none → m.inheritanceDepth t = 0) ∧
      (t.parent ≠ none → m.parentOf t = none → m.inheritanceDepth t = 1) ∧
      ∀ p, m.parentOf t = some p → m.inheritanceDepth t = m.inheritanceDepth p + 1) ∧
    ∀ (f : Filter) (results : Results), t ∈ f.acceptedTypes m → t.kind = .class_ →
      let metrics := (ClassLevel.analyzer.measure m f results).nodes.of t.entity
      SortedMap.find? metrics "dit" = some (.whole (m.inheritanceDepth t)) ∧
        SortedMap.find? metrics "varsi" = some (.whole {name | m.Shows t name}.ncard) := by
  intro m
  have measurable : m.Measurable := measurable calls
  have climb := measurable.climbs_ancestors there
  refine ⟨climb, climb.apart.2.of_map _, fun p => measurable.mem_ancestors there,
    fun straight => ⟨fun none => ?_, fun some none => ?_, fun p found => ?_⟩,
    fun f results listed is_class => ?_⟩
  · rw [measurable.depth_at_top there (by rw [CodeModel.parentOf, none, Option.bind_none]), none]
    rfl
  · rw [measurable.depth_at_top there none, if_pos (Option.isSome_iff_ne_none.mpr some)]
  · exact measurable.depth_of_parent there straight found
  · rw [← measurable.length_property_names there]
    exact measurable.class_inheritance results listed is_class

def Assembly.beforeCycle : Added := .source "cycle.php"
  ("<?php class A extends B {private $a;} class B extends A {var $b;} " ++
    "class C extends A {var $c;}")

/-- The class in front of the cycle is one deeper than the one on it, and shows two names: the
property of the first class is private. -/
theorem Assembly.inheritance_measured_before_cycle :
    let m := finished [beforeCycle]
    ∃ c ∈ m.types, ∃ a, m.parentOf c = some a ∧ ¬m.Above c c ∧ m.Above a a ∧
      (m.ancestors c).map (·.name) = ["A", "B"] ∧
      m.inheritanceDepth c = m.inheritanceDepth a + 1 ∧ m.inheritanceDepth c = 2 ∧
      SortedMap.find? ((ClassLevel.analyzer.measure m .all []).nodes.of c.entity) "varsi" =
        some (.whole {name | m.Shows c name}.ncard) ∧ {name | m.Shows c name}.ncard = 2 := by
  intro m
  have measurable : m.Measurable := measurable [beforeCycle]
  have shape : ∃ c ∈ m.types.toList, c.kind = .class_ ∧ Filter.all.acceptsType m c = true ∧
      (∀ x ∈ m.types.toList, (m.parentOf x).map (·.id) ≠ some c.id) ∧
      (m.ancestors c).map (·.name) = ["A", "B"] ∧ m.inheritanceDepth c = 2 ∧
      (m.propertyNames c).length = 2 ∧
      ∃ a ∈ m.types.toList, (m.parentOf c).map (·.id) = some a.id ∧
        ∃ b ∈ m.types.toList, (m.parentOf a).map (·.id) = some b.id ∧
          (m.parentOf b).map (·.id) = some a.id := by
    decide +kernel
  simp only [Array.mem_toList_iff] at shape
  obtain ⟨c, there, is_class, accepted, lowest, names, depth, length, a, known, parent, b, known',
    first, second⟩ := shape
  have found : m.HasParent c a := measurable.has_parent_of_id there known parent
  have first : m.HasParent a b := measurable.has_parent_of_id known known' first
  have second : m.HasParent b a := measurable.has_parent_of_id known' known second
  have straight : ¬m.Above c c := by
    intro around
    obtain ⟨x, reached, back⟩ := TransGen.tail'_iff.mp around
    have known : x ∈ m.types := by
      rcases Relation.reflTransGen_iff_eq_or_transGen.mp reached with rfl | above
      · exact there
      · exact measurable.above_known there above
    exact lowest x known (congrArg (Option.map (·.id)) back)
  have listed : c ∈ Filter.all.acceptedTypes m := Filter.mem_accepted_types.mpr ⟨there, accepted⟩
  obtain ⟨-, -, -, depths, metrics⟩ := inheritance_measured [beforeCycle] there
  refine ⟨c, there, a, found, straight, .head first (.single second), names,
    (depths straight).2.2 a found, depth, (metrics .all [] listed is_class).2, ?_⟩
  rw [← measurable.length_property_names there, length]

namespace Hierarchy

variable (m : CodeModel) (f : Filter)

def counted : List TypeDecl := (f.acceptedTypes m).filter (·.kind = .class_)

def leaves : List TypeDecl :=
  (counted m f).filter fun d => ∀ e ∈ counted m f, m.parentOf e ≠ some d

/-- What counted classes extend without being one of them. -/
def strangers : List TypeDecl := (parents m f).filter (· ∉ counted m f)

variable {m f}

theorem mem_counted {d : TypeDecl} :
    d ∈ counted m f ↔ d ∈ f.acceptedTypes m ∧ d.kind = .class_ := by
  rw [counted, List.mem_filter, decide_eq_true_eq]

theorem counted_once (measurable : m.Measurable) : (counted m f).Nodup := by
  have types : m.types.toList.Nodup := measurable.indexed.types_numbered.nodup.of_map _
  exact (types.filter _).filter _

theorem mem_parents (measurable : m.Measurable) {p : TypeDecl} :
    p ∈ parents m f ↔ ∃ d ∈ counted m f, m.parentOf d = some p := by
  simp only [(measurable.parents_gathered f).2, mem_counted, and_assoc]

/-- A leaf is a counted class that is not among the parents. -/
theorem leaves_eq (measurable : m.Measurable) :
    leaves m f = (counted m f).filter (· ∉ parents m f) := by
  refine List.filter_congr fun d _ => decide_eq_decide.mpr ?_
  simp only [mem_parents measurable, not_exists, not_and, ne_eq]

theorem strangers_eq_nil (measurable : m.Measurable) : strangers m f = [] ↔
    ∀ d ∈ counted m f, ∀ p, m.parentOf d = some p → p ∈ counted m f := by
  rw [strangers, List.filter_eq_nil_iff]
  constructor
  · intro all d here p extended
    simpa using all p ((mem_parents measurable).mpr ⟨d, here, extended⟩)
  · intro all p listed
    obtain ⟨d, here, extended⟩ := (mem_parents measurable).mp listed
    simpa using all d here p extended

/-- The parents that are counted classes are the counted classes that are parents, so that leaves
and strangers differ as all counted classes and all parents do. -/
theorem count_leaves (measurable : m.Measurable) :
    (counted m f).length + (strangers m f).length =
      (leaves m f).length + (parents m f).length := by
  have shared : ((counted m f).filter (· ∈ parents m f)).Perm
      ((parents m f).filter (· ∈ counted m f)) := by
    refine (List.perm_ext_iff_of_nodup ((counted_once measurable).filter _)
      ((measurable.parents_gathered f).1.filter _)).mpr fun d => ?_
    simp only [List.mem_filter, decide_eq_true_eq, and_comm]
  have classes := List.length_eq_length_filter_add (l := counted m f) (· ∈ parents m f)
  have extended := List.length_eq_length_filter_add (l := parents m f) (· ∈ counted m f)
  have same := shared.length_eq
  rw [leaves_eq measurable, strangers]
  simp only [decide_not] at *
  omega

end Hierarchy

/-- The leaves that are reported are fewer than there are, by as many as there are strangers, and
none if these are more. The number is right just where there is no leaf, or no stranger: where all
that counted classes extend is counted as a class. -/
theorem Assembly.leaf_count (calls : List Added) (f : Filter) (results : Results) :
    let m := finished calls
    let reported := SortedMap.find? (Hierarchy.analyzer.measure m f results).project "leafs"
    reported = some (.whole ((Hierarchy.leaves m f).length - (Hierarchy.strangers m f).length)) ∧
    (reported = some (.whole (Hierarchy.leaves m f).length) ↔ Hierarchy.leaves m f = [] ∨
      ∀ d ∈ Hierarchy.counted m f, ∀ p, m.parentOf d = some p → p ∈ Hierarchy.counted m f) := by
  intro m reported
  have measurable : m.Measurable := measurable calls
  have project : reported = some (.whole
      ((Hierarchy.leaves m f).length - (Hierarchy.strangers m f).length)) := by
    have count : (Hierarchy.counted m f).length - (Hierarchy.parents m f).length =
        (Hierarchy.leaves m f).length - (Hierarchy.strangers m f).length := by
      have := Hierarchy.count_leaves (f := f) measurable
      omega
    have found : reported = some (.whole
        ((Hierarchy.counted m f).length - (Hierarchy.parents m f).length)) := by
      have once : ((Hierarchy.counts m f).map (·.1)).Nodup := by simp [Hierarchy.counts]
      change SortedMap.find? (Hierarchy.analyzer.measure m f results).project "leafs" = _
      rw [Hierarchy.project_eq measurable, MetricMap.find_of_counts once]
      rfl
    rw [found, count]
  refine ⟨project, ?_⟩
  rw [project, Option.some.injEq, Amount.whole.injEq, ← Hierarchy.strangers_eq_nil measurable,
    ← List.length_eq_zero_iff, ← List.length_eq_zero_iff]
  omega

def Assembly.extendedInterface : Added :=
  .source "extended.php" "<?php interface I {} class A extends I {}"

example : let m := Assembly.finished [Assembly.extendedInterface]
    (Hierarchy.leaves m .all).map (·.name) = ["A"] ∧
      (Hierarchy.strangers m .all).map (·.name) = ["I"] ∧
      SortedMap.find? (Hierarchy.analyzer.measure m .all []).project "leafs" = some (.whole 0) := by
  decide +kernel

end PhpAnalyser
