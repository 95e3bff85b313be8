import PhpAnalyser.Proofs.Measure.Accepted
import PhpAnalyser.Proofs.Text.Case
/-!
Models of the same files in another order. They differ in their numbers, but what each file
declares is outlined alike, and so is what the declarations have from each other.
-/
namespace PhpAnalyser

section Images

variable {α α' β γ : Type} {g : α → β} {g' : α' → β} {l : List α} {l' : List α'}

/-- What agrees on elements with one image agrees on lists with one image. -/
theorem map_eq_of_map_eq {h : α → γ} {h' : α' → γ} (same : l.map g = l'.map g')
    (each : ∀ a ∈ l, ∀ a' ∈ l', g a = g' a' → h a = h' a') : l.map h = l'.map h' := by
  induction l generalizing l' with
  | nil =>
    rw [List.map_nil, eq_comm, List.map_eq_nil_iff] at same
    rw [same]
    rfl
  | cons a l ih =>
    cases l' with
    | nil => cases same
    | cons a' l' =>
      obtain ⟨first, rest⟩ := List.cons_eq_cons.mp same
      rw [List.map_cons, List.map_cons, each a List.mem_cons_self a' List.mem_cons_self first,
        ih rest fun b here b' there => each b (List.mem_cons_of_mem a here) b'
          (List.mem_cons_of_mem a' there)]

theorem count_of_map_eq (same : l.map g = l'.map g') (p : β → Bool) :
    (l.filter fun a => p (g a)).length = (l'.filter fun a => p (g' a)).length := by
  have counted := congrArg (List.countP p) same
  rwa [List.countP_map, List.countP_map, List.countP_eq_length_filter,
    List.countP_eq_length_filter] at counted

theorem rel_last {R : α → α' → Prop} (related : List.Forall₂ R l l') {a : α} {a' : α'}
    (start : R a a') : R (l.getLast?.getD a) (l'.getLast?.getD a') := by
  induction related generalizing a a' with
  | nil => exact start
  | cons first _ ih =>
    rw [List.getLast?_cons, List.getLast?_cons]
    exact ih first

/-- Lists that agree on each part are made of the same elements. -/
theorem perm_of_parts {κ : Type} [DecidableEq κ] [DecidableEq β] (key : β → κ) {l l' : List β}
    (parts : ∀ k, l.filter (key · = k) = l'.filter (key · = k)) : l.Perm l' := by
  refine List.perm_iff_count.mpr fun b => ?_
  have own (l : List β) : l.count b = (l.filter (key · = key b)).count b :=
    (List.count_filter (by simp)).symm
  rw [own l, own l', parts]

end Images

namespace CodeModel

def outline (m : CodeModel) (d : TypeDecl) : TypeOutline := m.typeOutline m.file? d

def functionShown (m : CodeModel) (c : Callable) : FunctionOutline := m.functionOutline m.file? c

end CodeModel

def Filter.acceptsPlace (f : Filter) (file space : String) : Bool :=
  (!f.packages.any fun pattern => matchesPackage pattern space) &&
    !f.paths.any (startsWith file.toList)

theorem matches_lowercase (pattern name : String) :
    matchesPackage pattern (lowercase name) = matchesPackage pattern name := by
  unfold matchesPackage
  rw [lowercase_lowercase]

namespace CodeModel.Measurable

variable {m : CodeModel} {f : Filter} (measurable : m.Measurable)

include measurable

theorem accepts_package {p : Package} (there : p ∈ m.packages) : f.acceptsPackage p =
    !f.packages.any fun pattern => matchesPackage pattern (symbolKey p.name) := by
  have key : symbolKey p.name = lowercase p.name := by
    rw [symbolKey, (measurable.packages_rootless p there).drop_eq]
  simp only [Filter.acceptsPackage, key, matches_lowercase]

theorem accepts_place {package file : Nat} (housed : package < m.packages.size)
    (filed : ∃ s, m.file? file = some s) :
    (f.acceptsPackageId m package && f.acceptsFile m file) =
      f.acceptsPlace (FileTable.nameOf m.file? file) (m.spaceOf package) := by
  obtain ⟨s, found⟩ := filed
  have package_found : m.package? package = some m.packages[package] :=
    Array.getElem?_eq_getElem housed
  rw [Filter.acceptsPackageId, Filter.acceptsFile, package_found, found, Option.all_some,
    Option.all_some, measurable.accepts_package (Array.getElem_mem housed), Filter.acceptsPlace,
    FileTable.nameOf, found, spaceOf, package_found]
  rfl

theorem accepts_type {d : TypeDecl} (there : d ∈ m.types) :
    f.acceptsType m d = f.acceptsPlace (m.outline d).file (m.outline d).space :=
  measurable.accepts_place
    (measurable.indexed.packed.types_housed d (Array.mem_toList_iff.mpr there))
    (measurable.types_filed d there)

theorem accepts_function {c : Callable} (there : c ∈ m.callables) (plain : c.isMethod = false) :
    f.acceptsCallable m c =
      f.acceptsPlace (m.functionShown c).file (m.functionShown c).space := by
  cases kind : c.kind with
  | method owner =>
    rw [is_method_of_method kind] at plain
    cases plain
  | function p =>
    have housed := measurable.indexed.packed.functions_housed c
      (Array.mem_toList_iff.mpr there) p kind
    rw [functionShown, functionOutline, Filter.acceptsCallable, Filter.packageOf, kind,
      Option.all_some]
    exact measurable.accepts_place housed (measurable.callables_filed c there)

theorem accepted_type_outlines : (f.acceptedTypes m).map m.outline =
    (m.typeOutlines m.file?).filter fun o => f.acceptsPlace o.file o.space := by
  rw [typeOutlines, List.filter_map]
  refine congrArg (List.map m.outline) (List.filter_congr fun d listed => ?_)
  exact measurable.accepts_type (Array.mem_toList_iff.mp listed)

theorem accepted_function_outlines : (f.acceptedFunctions m).map m.functionShown =
    (m.functionOutlines m.file?).filter fun o => f.acceptsPlace o.file o.space := by
  rw [functionOutlines, List.filter_map, List.filter_filter]
  refine congrArg (List.map m.functionShown) (List.filter_congr fun c listed => ?_)
  cases plain : c.isMethod with
  | true => simp
  | false =>
    rw [measurable.accepts_function (Array.mem_toList_iff.mp listed) plain, Bool.and_comm]
    rfl

end CodeModel.Measurable

/-- The files of two models, by their names, declare the same in the same order. -/
structure CodeModel.Alike (m m' : CodeModel) : Prop where
  first : m.Measurable
  second : m'.Measurable
  types : ∀ name, (m.typeOutlines m.file?).filter (·.file = name) =
    (m'.typeOutlines m'.file?).filter (·.file = name)
  functions : ∀ name, (m.functionOutlines m.file?).filter (·.file = name) =
    (m'.functionOutlines m'.file?).filter (·.file = name)

structure Twins (m m' : CodeModel) (d d' : TypeDecl) : Prop where
  first : d ∈ m.types
  second : d' ∈ m'.types
  outline : m.outline d = m'.outline d'

namespace CodeModel.Alike

variable {m m' : CodeModel} (alike : m.Alike m')

include alike

theorem symm : m'.Alike m :=
  ⟨alike.second, alike.first, fun name => (alike.types name).symm,
    fun name => (alike.functions name).symm⟩

theorem types_perm : (m.types.toList.map m.outline).Perm (m'.types.toList.map m'.outline) :=
  perm_of_parts (·.file) alike.types

theorem functions_perm : (m.functionOutlines m.file?).Perm (m'.functionOutlines m'.file?) :=
  perm_of_parts (·.file) alike.functions

theorem size : m.types.size = m'.types.size := by
  simpa using alike.types_perm.length_eq

theorem twin {d : TypeDecl} (there : d ∈ m.types) : ∃ d', Twins m m' d d' := by
  have shown := alike.types_perm.mem_iff.mp (List.mem_map_of_mem (Array.mem_toList_iff.mpr there))
  obtain ⟨d', listed, same⟩ := List.mem_map.mp shown
  exact ⟨d', there, Array.mem_toList_iff.mp listed, same.symm⟩

end CodeModel.Alike

namespace Twins

variable {m m' : CodeModel} {d d' e e' : TypeDecl}

theorem symm (twins : Twins m m' d d') : Twins m' m d' d :=
  ⟨twins.second, twins.first, twins.outline.symm⟩

theorem name (twins : Twins m m' d d') : d.qualifiedName = d'.qualifiedName :=
  congrArg TypeOutline.name twins.outline

/-- No type has two twins. -/
theorem unique (indexed : m'.Indexed) (twins : Twins m m' d d') (others : Twins m m' d e') :
    d' = e' :=
  List.inj_on_of_nodup_map indexed.type_names_once (Array.mem_toList_iff.mpr twins.second)
    (Array.mem_toList_iff.mpr others.second) (twins.name.symm.trans others.name)

theorem eq_iff (alike : m.Alike m') (twins : Twins m m' d d') (others : Twins m m' e e') :
    d = e ↔ d' = e' := by
  constructor
  · rintro rfl
    exact twins.unique alike.second.indexed others
  · rintro rfl
    exact twins.symm.unique alike.first.indexed others.symm

end Twins

namespace CodeModel

variable {m m' : CodeModel}

/-- A reference that was never asked leads to the type with the key of its name. -/
theorem resolve_iff (indexed : m.Indexed) {r : TypeReference} (unasked : r.known = none)
    {p : TypeDecl} : m.resolve r = some p ↔
      p ∈ m.types ∧ symbolKey p.qualifiedName = symbolKey r.name := by
  rw [resolve, TypeReference.resolve, unasked, Option.getD_none, SymbolTable.lookupType]
  constructor
  · intro found
    cases known : m.symbols.type? r.name with
    | none =>
      rw [known] at found
      cases found
    | some id =>
      rw [known] at found
      obtain ⟨d, at_, key⟩ := indexed.type_of_row (mem_of_lookup known)
      have same : some d = some p := at_.symm.trans found
      cases same
      exact ⟨Array.mem_of_getElem? at_, key⟩
  · rintro ⟨there, key⟩
    have known := indexed.type_name there
    rw [SymbolTable.type?, key] at known
    rw [SymbolTable.type?, known]
    exact indexed.types_numbered.get there

namespace Alike

variable (alike : m.Alike m') {d d' : TypeDecl}

include alike

theorem parent (twins : Twins m m' d d') {p : TypeDecl} (found : m.parentOf d = some p) :
    ∃ p', m'.parentOf d' = some p' ∧ Twins m m' p p' := by
  obtain ⟨r, named, resolved⟩ := Option.bind_eq_some_iff.mp found
  have unasked := alike.first.parents_open d twins.first r named
  obtain ⟨there, key⟩ := (resolve_iff alike.first.indexed unasked).mp resolved
  obtain ⟨p', parents⟩ := alike.twin there
  have named' : d'.parent = some r := (congrArg TypeOutline.parent twins.outline).symm.trans named
  refine ⟨p', ?_, parents⟩
  rw [parentOf, named', Option.bind_some, resolve_iff alike.second.indexed unasked, ← parents.name]
  exact ⟨parents.second, key⟩

/-- Twins have twins as parents, or have none. -/
theorem parents (twins : Twins m m' d d') : m.parentOf d = none ∧ m'.parentOf d' = none ∨
    ∃ p p', m.parentOf d = some p ∧ m'.parentOf d' = some p' ∧ Twins m m' p p' := by
  cases found : m.parentOf d with
  | some p =>
    obtain ⟨p', found', parents⟩ := alike.parent twins found
    exact .inr ⟨p, p', rfl, found', parents⟩
  | none =>
    cases found' : m'.parentOf d' with
    | none => exact .inl ⟨rfl, rfl⟩
    | some p' =>
      obtain ⟨p, contradiction, -⟩ := alike.symm.parent twins.symm found'
      rw [found] at contradiction
      cases contradiction

/-- Walks up the parents of twins meet twins. What was seen on the way is given as the types that
the numbers stand for. -/
theorem parents_within (fuel : Nat) {seen seen' : List TypeDecl}
    (known : List.Forall₂ (Twins m m') seen seen') (twins : Twins m m' d d') :
    List.Forall₂ (Twins m m') (m.parentsWithin fuel (seen.map (·.id)) d)
      (m'.parentsWithin fuel (seen'.map (·.id)) d') := by
  induction fuel generalizing seen seen' d d' with
  | zero => exact .nil
  | succ fuel ih =>
    have met {p p' : TypeDecl} (parents : Twins m m' p p') :
        (seen.map (·.id)).contains p.id = (seen'.map (·.id)).contains p'.id := by
      induction known with
      | nil => rfl
      | @cons e e' _ _ twins' _ ih =>
        have same : (p.id == e.id) = (p'.id == e'.id) := by
          rw [Bool.eq_iff_iff, beq_iff_eq, beq_iff_eq]
          constructor
          · intro id
            rw [(parents.eq_iff alike twins').mp
              (alike.first.indexed.types_numbered.inj parents.first twins'.first id)]
          · intro id
            rw [(parents.eq_iff alike twins').mpr
              (alike.second.indexed.types_numbered.inj parents.second twins'.second id)]
        rw [List.map_cons, List.map_cons, List.contains_cons, List.contains_cons, same, ih]
    rw [parentsWithin, parentsWithin]
    obtain ⟨none, none'⟩ | ⟨p, p', found, found', parents⟩ := alike.parents twins
    · rw [none, none']
      exact .nil
    · rw [found, found']
      dsimp only
      rw [met parents]
      split
      · exact .nil
      · exact .cons parents (ih (.cons parents known) parents)

theorem ancestors (twins : Twins m m' d d') :
    List.Forall₂ (Twins m m') (m.ancestors d) (m'.ancestors d') := by
  rw [CodeModel.ancestors, CodeModel.ancestors, alike.size]
  exact alike.parents_within _ (.cons twins .nil) twins

theorem inheritance_depth (twins : Twins m m' d d') :
    m.inheritanceDepth d = m'.inheritanceDepth d' := by
  have above := alike.ancestors twins
  have top := rel_last above twins
  have named : ((m.ancestors d).getLast?.getD d).parent =
      ((m'.ancestors d').getLast?.getD d').parent := congrArg TypeOutline.parent top.outline
  have unknown : (m.parentOf ((m.ancestors d).getLast?.getD d)).isNone =
      (m'.parentOf ((m'.ancestors d').getLast?.getD d')).isNone := by
    obtain ⟨none, none'⟩ | ⟨p, p', found, found', -⟩ := alike.parents top
    · rw [none, none']
    · rw [found, found']
      rfl
  unfold inheritanceDepth
  dsimp only
  rw [above.length_eq, named, unknown]

theorem property_names (twins : Twins m m' d d') : m.propertyNames d = m'.propertyNames d' := by
  have own {e e' : TypeDecl} (twins : Twins m m' e e') :
      (m.propertiesOf e).map Property.outline = (m'.propertiesOf e').map Property.outline :=
    congrArg TypeOutline.properties twins.outline
  have above : ((m.ancestors d).flatMap m.propertiesOf).map Property.outline =
      ((m'.ancestors d').flatMap m'.propertiesOf).map Property.outline := by
    rw [List.map_flatMap, List.map_flatMap]
    generalize m.ancestors d = l, m'.ancestors d' = l', alike.ancestors twins = related
    induction related with
    | nil => rfl
    | cons first _ ih => rw [List.flatMap_cons, List.flatMap_cons, own first, ih]
  have named (properties : List Property) : properties.map (·.name) =
      (properties.map Property.outline).map (·.1) := by
    rw [List.map_map]
    rfl
  have visible (properties : List Property) :
      (properties.filter (·.visibility ≠ .private_)).map Property.outline =
        (properties.map Property.outline).filter (·.2 ≠ .private_) := by
    rw [List.filter_map]
    rfl
  have all : (m.propertiesOf d ++ ((m.ancestors d).flatMap m.propertiesOf).filter
        (·.visibility ≠ .private_)).map Property.outline =
      (m'.propertiesOf d' ++ ((m'.ancestors d').flatMap m'.propertiesOf).filter
        (·.visibility ≠ .private_)).map Property.outline := by
    rw [List.map_append, List.map_append, own twins, visible, visible, above]
  rw [propertyNames, propertyNames, named (_ ++ _), named (_ ++ _), all]

end Alike

end CodeModel

end PhpAnalyser
