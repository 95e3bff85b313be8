import Mathlib.Logic.Equiv.Basic
import PhpAnalyser.Proofs.Code.Contents
/-!
The same declarations registered in another order have other ids. Composition gives them the same
tables up to their ids.
-/
namespace PhpAnalyser

structure Renumbering where
  types : Equiv.Perm Nat
  callables : Equiv.Perm Nat

variable (ρ : Renumbering)

def MethodSource.renumbered : MethodSource → MethodSource
  | declared => declared
  | fromTrait t => fromTrait (ρ.types t)
  | renamed t => renamed (ρ.types t)

def MethodBinding.renumbered (b : MethodBinding) : MethodBinding :=
  { b with method := ρ.callables b.method, source := b.source.renumbered ρ }

def MethodTable.renumbered (t : MethodTable) : MethodTable :=
  t.map fun entry => (entry.1, entry.2.renumbered ρ)

def Composition.renumbered : Composition → Composition
  | pending => pending
  | composed table => composed (table.renumbered ρ)
  | failed => failed

def Offer.renumbered (o : Offer) : Offer := ⟨ρ.types o.traitId, o.binding.renumbered ρ, o.clause⟩

def Offers.renumbered (offers : Offers) : Offers :=
  offers.map fun entry => (entry.1, entry.2.map (·.renumbered ρ))

namespace MethodTable

theorem declared_renumbered (b : MethodBinding) :
    (b.renumbered ρ).source = .declared ↔ b.source = .declared := by
  cases b with
  | mk name method source visibility =>
    cases source <;> simp [MethodBinding.renumbered, MethodSource.renumbered]

theorem renumbered_cons (entry : String × MethodBinding) (t : MethodTable) :
    renumbered ρ (entry :: t) = (entry.1, entry.2.renumbered ρ) :: renumbered ρ t := rfl

@[simp] theorem find_renumbered (t : MethodTable) (key : String) :
    SortedMap.find? (t.renumbered ρ) key = (SortedMap.find? t key).map (·.renumbered ρ) := by
  induction t with
  | nil => rfl
  | cons entry rest ih =>
    rw [renumbered_cons, SortedMap.find_cons, SortedMap.find_cons, ih]
    split <;> rfl

theorem put_renumbered (t : MethodTable) (key : String) (b : MethodBinding) :
    renumbered ρ (SortedMap.put t key b) = SortedMap.put (t.renumbered ρ) key (b.renumbered ρ) := by
  induction t with
  | nil => rfl
  | cons entry rest ih =>
    obtain ⟨name, old⟩ := entry
    rw [renumbered_cons, SortedMap.put, SortedMap.put]
    split
    · rfl
    · split
      · rfl
      · rw [renumbered_cons, ih]

@[simp] theorem add_renumbered (t : MethodTable) (b : MethodBinding) :
    (add t b).renumbered ρ = add (t.renumbered ρ) (b.renumbered ρ) := by
  have binds : binds (t.renumbered ρ) (b.renumbered ρ).name = binds t b.name := by
    rw [MethodTable.binds, MethodTable.binds, get?, get?, find_renumbered, Option.isSome_map]
    rfl
  rw [add, add, binds]
  split
  · rfl
  · exact put_renumbered ρ t _ b

@[simp] theorem set_visibility_renumbered (t : MethodTable) (name : String)
    (visibility : Visibility) :
    (setVisibility t name visibility).renumbered ρ =
      setVisibility (t.renumbered ρ) name visibility := by
  rw [setVisibility, setVisibility, get?, get?, find_renumbered]
  cases SortedMap.find? t (lowercase name) with
  | none => rfl
  | some b =>
    dsimp only [Option.map_some]
    by_cases declared : b.source = .declared
    · rw [if_pos declared, if_pos ((declared_renumbered ρ b).mpr declared)]
    · rw [if_neg declared, if_neg fun no => declared ((declared_renumbered ρ b).mp no)]
      exact put_renumbered ρ t _ _

theorem add_all_renumbered (t : MethodTable) (added : List MethodBinding) :
    (added.foldl add t).renumbered ρ = (added.map (·.renumbered ρ)).foldl add (t.renumbered ρ) := by
  rw [List.foldl_map]
  exact (List.foldl_hom (renumbered ρ) fun t b => (add_renumbered ρ t b).symm).symm

end MethodTable

theorem Offer.same_trait (o other : Offer) :
    (o.renumbered ρ).traitId = (other.renumbered ρ).traitId ↔ o.traitId = other.traitId :=
  ρ.types.apply_eq_iff_eq

namespace Offers

theorem renumbered_cons (entry : String × List Offer) (offers : Offers) :
    renumbered ρ (entry :: offers) =
      (entry.1, entry.2.map (·.renumbered ρ)) :: renumbered ρ offers := rfl

@[simp] theorem of_name_renumbered (offers : Offers) (key : String) :
    (offers.renumbered ρ).ofName key = (offers.ofName key).map (·.renumbered ρ) := by
  induction offers with
  | nil => rfl
  | cons entry rest ih =>
    rw [renumbered_cons, of_name_cons, of_name_cons, ih]
    split <;> rfl

theorem add_renumbered (offers : Offers) (key : String) (offer : Offer) :
    (offers.add key offer).renumbered ρ = (offers.renumbered ρ).add key (offer.renumbered ρ) := by
  induction offers with
  | nil => rfl
  | cons entry rest ih =>
    obtain ⟨name, known⟩ := entry
    have again : (known.map (·.renumbered ρ)).any (·.traitId = (offer.renumbered ρ).traitId) =
        known.any (·.traitId = offer.traitId) := by
      simp only [List.any_map, Function.comp_def, Offer.same_trait]
    rw [renumbered_cons, add, add]
    split
    · rw [again, renumbered_cons]
      split
      · rfl
      · rw [List.map_append]
        rfl
    · rw [renumbered_cons, ih]

theorem add_table_renumbered (offers : Offers) (traitId clause : Nat) (table : MethodTable) :
    (offers.addTable traitId clause table).renumbered ρ =
      (offers.renumbered ρ).addTable (ρ.types traitId) clause (table.renumbered ρ) := by
  have bindings : (table.renumbered ρ).bindings = table.bindings.map (·.renumbered ρ) := by
    rw [MethodTable.bindings, MethodTable.bindings, MethodTable.renumbered, List.map_map,
      List.map_map]
    rfl
  rw [addTable, addTable, bindings, List.foldl_map]
  exact (List.foldl_hom (renumbered ρ) fun offers b =>
    (add_renumbered ρ offers (lowercase b.name) ⟨traitId, b, clause⟩).symm).symm

def renumberedUses (used : List (Nat × Nat)) : List (Nat × Nat) :=
  used.map fun u => (ρ.types u.1, u.2)

theorem gathered_renumbered {tables tables' : Nat → MethodTable} {used : List (Nat × Nat)}
    (same : ∀ u ∈ used.map (·.1), tables' (ρ.types u) = (tables u).renumbered ρ) :
    gathered tables' (renumberedUses ρ used) = (gathered tables used).renumbered ρ := by
  induction used using List.reverseRecOn with
  | nil => rfl
  | append_singleton used u ih =>
    rw [renumberedUses, List.map_append, List.map_singleton, gathered_append, gathered_append,
      ← renumberedUses, ih fun v member => same v (by simp [List.mem_map.mp member]),
      add_table_renumbered, same u.1 (by simp)]

end Offers

def TraitUse.content (u : TraitUse) : List TypeReference × List PrecedenceRule × List RenameRule :=
  (u.traits, u.precedences, u.renames)

def TraitUse.references (u : TraitUse) : List TypeReference :=
  u.traits ++ u.precedences.flatMap (·.excluded) ++ u.renames.filterMap (·.traitName)

/-- Two types that differ in their ids and those of their methods. -/
structure SameType (t t' : TypeDecl) : Prop where
  id : t'.id = ρ.types t.id
  kind : t'.kind = t.kind
  methods : t'.methods = t.methods.map ρ.callables
  uses : t'.uses.map TraitUse.content = t.uses.map TraitUse.content

structure SameCallable (c c' : Callable) : Prop where
  id : c'.id = ρ.callables c.id
  name : c'.name = c.name
  visibility : c'.visibility = c.visibility
  isAbstract : c'.isAbstract = c.isAbstract

instance (t t' : TypeDecl) : Decidable (SameType ρ t t') :=
  decidable_of_iff (t'.id = ρ.types t.id ∧ t'.kind = t.kind ∧
      t'.methods = t.methods.map ρ.callables ∧
      t'.uses.map TraitUse.content = t.uses.map TraitUse.content)
    ⟨fun ⟨id, kind, methods, uses⟩ => ⟨id, kind, methods, uses⟩,
      fun ⟨id, kind, methods, uses⟩ => ⟨id, kind, methods, uses⟩⟩

instance (c c' : Callable) : Decidable (SameCallable ρ c c') :=
  decidable_of_iff (c'.id = ρ.callables c.id ∧ c'.name = c.name ∧ c'.visibility = c.visibility ∧
      c'.isAbstract = c.isAbstract)
    ⟨fun ⟨id, name, visibility, isAbstract⟩ => ⟨id, name, visibility, isAbstract⟩,
      fun ⟨id, name, visibility, isAbstract⟩ => ⟨id, name, visibility, isAbstract⟩⟩

structure CodeModel.Renumbered (m m' : CodeModel) : Prop where
  types : ∀ id, Option.Rel (SameType ρ) (m.type? id) (m'.type? (ρ.types id))
  callables : ∀ id, Option.Rel (SameCallable ρ) (m.callable? id) (m'.callable? (ρ.callables id))
  names : ∀ t ∈ m.types, ∀ u ∈ t.uses, ∀ r ∈ u.references,
    (m'.resolve r).map (·.id) = (m.resolve r).map fun d => ρ.types d.id

variable {ρ}

theorem rel_cases {α β : Type} {related : α → β → Prop} {a : Option α} {b : Option β}
    (rel : Option.Rel related a b) :
    a = none ∧ b = none ∨ ∃ x y, a = some x ∧ b = some y ∧ related x y := by
  cases rel with
  | none => exact .inl ⟨rfl, rfl⟩
  | some related => exact .inr ⟨_, _, rfl, rfl, related⟩

namespace CodeModel.Renumbered

variable {m m' : CodeModel} {t t' : TypeDecl}

theorem declared_table (same : m.Renumbered ρ m') (types : SameType ρ t t') :
    m'.declaredTable t' = (m.declaredTable t).renumbered ρ := by
  have bindings : (m'.methodsOf t').map ownBinding =
      ((m.methodsOf t).map ownBinding).map (·.renumbered ρ) := by
    rw [methodsOf, methodsOf, types.methods, List.filterMap_map, List.map_filterMap,
      List.map_filterMap, List.map_filterMap]
    refine List.filterMap_congr fun id _ => ?_
    rw [Function.comp_apply]
    rcases rel_cases (same.callables id) with ⟨none, none'⟩ | ⟨c, c', found, found', callables⟩
    · rw [none, none']
      rfl
    · rw [found, found', Option.map_some, Option.map_some, Option.map_some, ownBinding, ownBinding,
        callables.id, callables.name, callables.visibility]
      rfl
  rw [declared_table_eq, declared_table_eq, bindings, MethodTable.add_all_renumbered]
  rfl

section Resolved

variable (same : m.Renumbered ρ m') (numbered : Numbered TypeDecl.id m.types)
  (numbered' : Numbered TypeDecl.id m'.types) (member : t ∈ m.types)

include same numbered numbered' member in
theorem used_trait {u : TraitUse} (clause : u ∈ t.uses) {r : TypeReference} (listed : r ∈ u.traits) :
    m'.usedTrait? r = (m.usedTrait? r).map ρ.types := by
  have leads := same.names t member u clause r (by simp [TraitUse.references, listed])
  unfold usedTrait?
  cases found : m.resolve r with
  | none =>
    rw [found, Option.map_none, Option.map_eq_none_iff] at leads
    rw [leads]
    rfl
  | some d =>
    rw [found, Option.map_some] at leads
    obtain ⟨d', found', id⟩ := Option.map_eq_some_iff.mp leads
    obtain ⟨k, -, there⟩ := Option.bind_eq_some_iff.mp found
    obtain ⟨k', -, there'⟩ := Option.bind_eq_some_iff.mp found'
    obtain rfl : d.id = k := numbered k d there
    obtain rfl : d'.id = k' := numbered' k' d' there'
    rw [id] at there'
    rcases rel_cases (same.types d.id) with ⟨none, -⟩ | ⟨e, e', at_, at_', types⟩
    · rw [none] at there
      cases there
    · obtain rfl := Option.some.inj (there.symm.trans at_)
      obtain rfl := Option.some.inj (there'.symm.trans at_')
      rw [found']
      dsimp only
      rw [types.kind, id]
      split <;> rfl

theorem used_traits_content (m : CodeModel) (t : TypeDecl) :
    m.usedTraits t = (t.uses.map TraitUse.content).zipIdx.flatMap fun (content, place) =>
      (content.1.filterMap m.usedTrait?).map (·, place) := by
  rw [usedTraits, List.zipIdx_map, List.flatMap_map]
  rfl

theorem precedences_content (t : TypeDecl) :
    t.uses.flatMap (·.precedences) = (t.uses.map TraitUse.content).flatMap (·.2.1) := by
  rw [List.flatMap_map]
  rfl

theorem renames_content (t : TypeDecl) :
    t.uses.flatMap (·.renames) = (t.uses.map TraitUse.content).flatMap (·.2.2) := by
  rw [List.flatMap_map]
  rfl

include same numbered numbered' member in
theorem used_traits (types : SameType ρ t t') :
    m'.usedTraits t' = Offers.renumberedUses ρ (m.usedTraits t) := by
  rw [used_traits_content, types.uses, ← used_traits_content m', usedTraits, usedTraits,
    Offers.renumberedUses, List.map_flatMap]
  refine List.flatMap_congr ?_
  rintro ⟨u, place⟩ listed
  have clause : u ∈ t.uses := (List.mem_zipIdx' listed).2 ▸ List.getElem_mem _
  have traits : u.traits.filterMap m'.usedTrait? = (u.traits.filterMap m.usedTrait?).map ρ.types := by
    rw [List.map_filterMap]
    exact List.filterMap_congr fun r inside => used_trait same numbered numbered' member clause inside
  dsimp only
  rw [traits, List.map_map, List.map_map]
  rfl

include same member in
theorem excluded_types (types : SameType ρ t t') (key : String) :
    m'.excludedTypes t' key = (m.excludedTypes t key).map ρ.types := by
  rw [excludedTypes, excludedTypes, precedences_content t', types.uses, ← precedences_content,
    List.map_flatMap]
  refine List.flatMap_congr fun rule listed => ?_
  obtain ⟨u, clause, inside⟩ := List.mem_flatMap.mp (List.mem_filter.mp listed).1
  rw [List.map_filterMap, List.map_filterMap, List.map_filterMap]
  refine List.filterMap_congr fun r excluded => ?_
  have reference : r ∈ u.references := by
    rw [TraitUse.references, List.append_assoc, List.mem_append, List.mem_append, List.mem_flatMap]
    exact .inr (.inl ⟨rule, inside, excluded⟩)
  rw [same.names t member u clause r reference, Option.map_map]
  rfl

include same member in
theorem rule_offer {rule : RenameRule} (listed : rule ∈ t.uses.flatMap (·.renames))
    (offers : Offers) :
    m'.ruleOffer? (offers.renumbered ρ) rule = (m.ruleOffer? offers rule).map (·.renumbered ρ) := by
  obtain ⟨u, clause, inside⟩ := List.mem_flatMap.mp listed
  unfold ruleOffer?
  rw [Offers.of_name_renumbered]
  cases named : rule.traitName with
  | none => exact List.head?_map
  | some name =>
    have reference : name ∈ u.references := by
      rw [TraitUse.references, List.mem_append, List.mem_filterMap]
      exact .inr ⟨rule, inside, named⟩
    dsimp only
    rw [List.find?_map, same.names t member u clause name reference]
    congr 2
    funext o
    cases m.resolve name with
    | none => simp
    | some d => simp [Offer.renumbered]

end Resolved

theorem abstract_offer (same : m.Renumbered ρ m') (o : Offer) :
    m'.isAbstractOffer (o.renumbered ρ) = m.isAbstractOffer o := by
  rw [isAbstractOffer, isAbstractOffer]
  change (m'.callable? (ρ.callables o.binding.method)).any _ = _
  rcases rel_cases (same.callables o.binding.method) with
    ⟨none, none'⟩ | ⟨c, c', found, found', callables⟩
  · rw [none, none']
  · rw [found, found', Option.any_some, Option.any_some, callables.isAbstract]

theorem contains_renumbered (removed : List Nat) (o : Offer) :
    (removed.map ρ.types).contains (o.renumbered ρ).traitId = removed.contains o.traitId := by
  rw [Bool.eq_iff_iff, List.contains_iff_mem, List.contains_iff_mem, Offer.renumbered,
    List.mem_map_of_injective ρ.types.injective]

def renumberedChoice (ρ : Renumbering) : Choice → Choice
  | .chosen o => .chosen (o.renumbered ρ)
  | .excluded => .excluded
  | .collision => .collision

theorem choose (same : m.Renumbered ρ m') (removed : List Nat) (offers : List Offer) :
    m'.choose (removed.map ρ.types) (offers.map (·.renumbered ρ)) =
      renumberedChoice ρ (m.choose removed offers) := by
  have left : (offers.map (·.renumbered ρ)).filter (fun o =>
      !(removed.map ρ.types).contains o.traitId) =
        (offers.filter fun o => !removed.contains o.traitId).map (·.renumbered ρ) := by
    rw [List.filter_map]
    simp only [Function.comp_def, contains_renumbered]
  have whole (offers : List Offer) : (offers.map (·.renumbered ρ)).filter
      (fun o => !m'.isAbstractOffer o) =
        (offers.filter fun o => !m.isAbstractOffer o).map (·.renumbered ρ) := by
    rw [List.filter_map]
    simp only [Function.comp_def, abstract_offer same]
  unfold CodeModel.choose
  simp only [left, whole, List.length_map]
  generalize offers.filter (fun o => !removed.contains o.traitId) = kept
  cases kept with
  | nil => by_cases many : offers.length > 1 <;> simp [many, renumberedChoice]
  | cons first rest =>
    dsimp only [List.map_cons]
    generalize (first :: rest).filter (fun o => !m.isAbstractOffer o) = concrete
    match concrete with
    | [] => rfl
    | [only] => rfl
    | _ :: _ :: _ => rfl

theorem winner (same : m.Renumbered ρ m') (removed : List Nat) (offers : List Offer) :
    m'.winner? (removed.map ρ.types) (offers.map (·.renumbered ρ)) =
      (m.winner? removed offers).map (·.renumbered ρ) := by
  rw [winner?, winner?, same.choose]
  cases m.choose removed offers <;> rfl

section Steps

variable (same : m.Renumbered ρ m') (member : t ∈ m.types) (types : SameType ρ t t')
include same member types

omit member in
theorem binds_declared (key : String) :
    MethodTable.binds (m'.declaredTable t') key = MethodTable.binds (m.declaredTable t) key := by
  rw [same.declared_table types, MethodTable.binds, MethodTable.binds, MethodTable.get?,
    MethodTable.get?, MethodTable.find_renumbered, Option.isSome_map]

theorem chosen_table (offers : Offers) :
    m'.chosenTable t' (offers.renumbered ρ) = (m.chosenTable t offers).renumbered ρ := by
  rw [chosenTable, chosenTable, chosen_fold, chosen_fold, MethodTable.add_all_renumbered,
    same.declared_table types, Offers.renumbered, List.filterMap_map, List.map_filterMap]
  congr 2
  funext entry
  rw [Function.comp_apply, lent?, lent?, same.binds_declared types, same.excluded_types member types,
    same.winner]
  split
  · rfl
  · rw [Option.map_map, Option.map_map]
    rfl

theorem colliding (offers : Offers) :
    m'.colliding t' (offers.renumbered ρ) = (m.colliding t offers).renumbered ρ := by
  rw [CodeModel.colliding, CodeModel.colliding, Offers.renumbered, Offers.renumbered, List.filter_map]
  congr 2
  funext entry
  rw [Function.comp_apply, same.binds_declared types, same.excluded_types member types, same.choose]
  congr 2
  cases m.choose (m.excludedTypes t entry.1) entry.2 <;> simp [renumberedChoice]

omit types in
theorem apply_rename {rule : RenameRule} (listed : rule ∈ t.uses.flatMap (·.renames))
    (offers : Offers) (table : MethodTable) :
    m'.applyRename (offers.renumbered ρ) (table.renumbered ρ) rule =
      (m.applyRename offers table rule).renumbered ρ := by
  unfold applyRename
  rw [same.rule_offer member listed]
  cases m.ruleOffer? offers rule with
  | none => rfl
  | some o =>
    cases rule.newName with
    | some name =>
      dsimp only [Option.map_some]
      rw [MethodTable.add_renumbered]
      rfl
    | none =>
      cases rule.visibility with
      | some visibility =>
        dsimp only [Option.map_some]
        rw [MethodTable.set_visibility_renumbered]
      | none => rfl

omit types in
theorem apply_renames {rules : List RenameRule}
    (listed : ∀ rule ∈ rules, rule ∈ t.uses.flatMap (·.renames)) (offers : Offers)
    (table : MethodTable) :
    rules.foldl (m'.applyRename (offers.renumbered ρ)) (table.renumbered ρ) =
      (rules.foldl (m.applyRename offers) table).renumbered ρ := by
  induction rules generalizing table with
  | nil => rfl
  | cons rule rules ih =>
    rw [List.foldl_cons, List.foldl_cons, same.apply_rename member (listed rule List.mem_cons_self),
      ih fun other inside => listed other (List.mem_cons_of_mem _ inside)]

theorem table_of (offers : Offers) :
    (m'.tableOf t' (offers.renumbered ρ)).toOption =
      (m.tableOf t offers).toOption.map (·.renumbered ρ) := by
  have empty : (Offers.renumbered ρ (m.colliding t offers)).isEmpty =
      (m.colliding t offers).isEmpty := List.isEmpty_map
  rw [table_of_eq, table_of_eq, same.colliding member types, same.chosen_table member types, empty,
    renames_content t', types.uses, ← renames_content, same.apply_renames member fun _ inside => inside]
  split <;> rfl

end Steps

section Plain

variable (same : m.Renumbered ρ m') (numbered : Numbered TypeDecl.id m.types)
  (numbered' : Numbered TypeDecl.id m'.types)
include same

theorem fallback (id : Nat) :
    Composing.fallback m' (ρ.types id) = (Composing.fallback m id).renumbered ρ := by
  rw [Composing.fallback, Composing.fallback]
  rcases rel_cases (same.types id) with ⟨none, none'⟩ | ⟨t, t', found, found', types⟩
  · rw [none, none']
    rfl
  · rw [found, found']
    exact same.declared_table types

theorem offered {tables tables' : Nat → Option MethodTable} {id : Nat}
    (each : tables' (ρ.types id) = (tables id).map (·.renumbered ρ)) :
    m'.offered tables' (ρ.types id) = (m.offered tables id).renumbered ρ := by
  rw [CodeModel.offered, CodeModel.offered, each, same.fallback]
  cases tables id <;> rfl

include numbered numbered'

theorem plain_to (depth id : Nat) :
    m'.plainTo depth (ρ.types id) = (m.plainTo depth id).map (·.renumbered ρ) := by
  induction depth generalizing id with
  | zero => rfl
  | succ depth ih =>
    rw [plainTo, plainTo]
    rcases rel_cases (same.types id) with ⟨none, none'⟩ | ⟨t, t', found, found', types⟩
    · rw [none, none']
      rfl
    · have member : t ∈ m.types := Array.mem_of_getElem? found
      rw [found, found', Option.bind_some, Option.bind_some, plainOf, plainOf,
        same.used_traits numbered numbered' member types,
        Offers.gathered_renumbered ρ fun u _ => same.offered (ih u), same.table_of member types]

/-- A way along used traits is one in the other model too. -/
theorem uses_back {d t : Nat} (uses : m'.UsesTrait (ρ.types d) (ρ.types t)) : m.UsesTrait d t := by
  obtain ⟨decl', found', used⟩ := uses
  rcases rel_cases (same.types d) with ⟨-, none'⟩ | ⟨decl, e', found, at_, types⟩
  · rw [none'] at found'
    cases found'
  · obtain rfl := Option.some.inj (found'.symm.trans at_)
    rw [same.used_traits numbered numbered' (Array.mem_of_getElem? found) types,
      Offers.renumberedUses, List.map_map] at used
    obtain ⟨u, listed, leads⟩ := List.mem_map.mp used
    exact ⟨decl, found, List.mem_map.mpr ⟨u, listed, ρ.types.injective leads⟩⟩

theorem acyclic (acyclic : m.Acyclic) : m'.Acyclic := by
  intro id cycle
  refine acyclic (ρ.types.symm id) (cycle.lift ρ.types.symm fun d t uses => ?_)
  exact same.uses_back numbered numbered' (by simpa using uses)

theorem plain (acyclic : m.Acyclic) (id : Nat) :
    m'.plain (ρ.types id) = (m.plain id).map (·.renumbered ρ) := by
  have acyclic' := same.acyclic numbered numbered' acyclic
  rw [← plain_to_size numbered acyclic (Nat.le_max_left _ m'.types.size),
    ← plain_to_size numbered' acyclic' (Nat.le_max_right m.types.size _)]
  exact same.plain_to numbered numbered' _ id

end Plain

end CodeModel.Renumbered

theorem Composition.of_table_renumbered (table : Option MethodTable) :
    Composition.ofTable? (table.map (·.renumbered ρ)) =
      (Composition.ofTable? table).renumbered ρ := by
  cases table <;> rfl

namespace Assembly

open CodeModel

/-- Where no trait uses itself, the plain definition settles the table of every type, composition
leaves each type with it, and the order in which the types were registered makes no difference. -/
theorem composition_plain {calls : List Added} (acyclic : (finished calls).Acyclic) :
    (∀ id, (finished calls).plain id =
        ((finished calls).type? id).bind ((finished calls).plainOf (finished calls).plain)) ∧
      (∀ t ∈ (finished calls).types, t.composition = .ofTable? ((finished calls).plain t.id)) ∧
      ∀ (calls' : List Added) (ρ : Renumbering),
        (finished calls).Renumbered ρ (finished calls') → ∀ t ∈ (finished calls).types,
          ∃ t', (finished calls').type? (ρ.types t.id) = some t' ∧
            t'.composition = t.composition.renumbered ρ := by
  have numbered := finished_numbered calls
  refine ⟨plain_eq numbered acyclic, fun t => finished_plain acyclic, ?_⟩
  intro calls' ρ same t member
  have numbered' := finished_numbered calls'
  have acyclic' := same.acyclic numbered numbered' acyclic
  rcases rel_cases (same.types t.id) with ⟨none, -⟩ | ⟨u, t', -, found', types⟩
  · rw [type?, numbered.get member] at none
    cases none
  · refine ⟨t', found', ?_⟩
    rw [finished_plain acyclic' (Array.mem_of_getElem? found'), numbered' _ _ found',
      same.plain numbered numbered' acyclic, finished_plain acyclic member,
      Composition.of_table_renumbered]

def traitFile : Added := .source "trait.php" "<?php trait A { function f() {} }"

def classFile : Added := .source "class.php" "<?php class C { use A; function g() {} }"

def swapped : Renumbering := ⟨Equiv.swap 0 1, Equiv.swap 0 1⟩

theorem swapped_above (n : Nat) : swapped.types (n + 2) = n + 2 ∧ swapped.callables (n + 2) = n + 2 :=
  ⟨Equiv.swap_apply_of_ne_of_ne (by omega) (by omega),
    Equiv.swap_apply_of_ne_of_ne (by omega) (by omega)⟩

theorem rel_of_some {α β : Type} {related : α → β → Prop} {a : Option α} {b : Option β}
    (same : a.isSome = b.isSome) (each : ∀ x ∈ a, ∀ y ∈ b, related x y) :
    Option.Rel related a b := by
  cases a <;> cases b <;> simp_all

theorem two_files_renumbered :
    (finished [traitFile, classFile]).Renumbered swapped (finished [classFile, traitFile]) := by
  have types : (∀ id ∈ [0, 1],
      ((finished [traitFile, classFile]).type? id).isSome =
        ((finished [classFile, traitFile]).type? (swapped.types id)).isSome ∧
      ∀ t ∈ (finished [traitFile, classFile]).type? id,
        ∀ t' ∈ (finished [classFile, traitFile]).type? (swapped.types id),
          SameType swapped t t') ∧
      (finished [traitFile, classFile]).types.size = 2 ∧
      (finished [classFile, traitFile]).types.size = 2 := by decide +kernel
  have callables : (∀ id ∈ [0, 1],
      ((finished [traitFile, classFile]).callable? id).isSome =
        ((finished [classFile, traitFile]).callable? (swapped.callables id)).isSome ∧
      ∀ c ∈ (finished [traitFile, classFile]).callable? id,
        ∀ c' ∈ (finished [classFile, traitFile]).callable? (swapped.callables id),
          SameCallable swapped c c') ∧
      (finished [traitFile, classFile]).callables.size = 2 ∧
      (finished [classFile, traitFile]).callables.size = 2 := by decide +kernel
  refine ⟨fun id => ?_, fun id => ?_, ?_⟩
  · match id with
    | 0 => exact rel_of_some (types.1 0 (by simp)).1 (types.1 0 (by simp)).2
    | 1 => exact rel_of_some (types.1 1 (by simp)).1 (types.1 1 (by simp)).2
    | n + 2 =>
      rw [(swapped_above n).1, type?, type?, Array.getElem?_eq_none (by omega),
        Array.getElem?_eq_none (by omega)]
      exact .none
  · match id with
    | 0 => exact rel_of_some (callables.1 0 (by simp)).1 (callables.1 0 (by simp)).2
    | 1 => exact rel_of_some (callables.1 1 (by simp)).1 (callables.1 1 (by simp)).2
    | n + 2 =>
      rw [(swapped_above n).2, callable?, callable?, Array.getElem?_eq_none (by omega),
        Array.getElem?_eq_none (by omega)]
      exact .none
  · simp only [← Array.mem_toList_iff]
    decide +kernel

theorem two_files_acyclic : (finished [traitFile, classFile]).Acyclic :=
  acyclic_of_before (finished_numbered _) (by decide +kernel)

theorem composition_plain_two_files :
    (∀ t ∈ (finished [traitFile, classFile]).types,
        t.composition = .ofTable? ((finished [traitFile, classFile]).plain t.id)) ∧
      ∀ t ∈ (finished [traitFile, classFile]).types,
        ∃ t', (finished [classFile, traitFile]).type? (swapped.types t.id) = some t' ∧
          t'.composition = t.composition.renumbered swapped :=
  ⟨(composition_plain two_files_acyclic).2.1,
    (composition_plain two_files_acyclic).2.2 _ swapped two_files_renumbered⟩

end Assembly

end PhpAnalyser
