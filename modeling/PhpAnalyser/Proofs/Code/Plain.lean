import Mathlib.Data.Finset.Card
import Mathlib.Data.Finset.Range
import Mathlib.Logic.Relation
import PhpAnalyser.Proofs.Code.Composing
/-!
The composition of a type by plain recursion over the traits that it uses, without a memory of what
was composed and without a list of the types in work.
-/
namespace PhpAnalyser

open Relation (TransGen)

namespace CodeModel

variable (m : CodeModel)

def UsesTrait (d t : Nat) : Prop :=
  ∃ decl, m.type? d = some decl ∧ t ∈ (m.usedTraits decl).map (·.1)

def Acyclic : Prop := ∀ id, ¬TransGen m.UsesTrait id id

/-- The table that a trait offers: its own, or what it declares if it has none. -/
def offered (tables : Nat → Option MethodTable) (id : Nat) : MethodTable :=
  (tables id).getD (Composing.fallback m id)

def plainOf (tables : Nat → Option MethodTable) (t : TypeDecl) : Option MethodTable :=
  (m.tableOf t (Offers.gathered (m.offered tables) (m.usedTraits t))).toOption

def plainTo : Nat → Nat → Option MethodTable
  | 0, _ => none
  | depth + 1, id => (m.type? id).bind (m.plainOf (plainTo depth))

/-- The table of a type by plain recursion, or nothing if it fails. -/
def plain (id : Nat) : Option MethodTable := m.plainTo m.types.size id

variable {m}

theorem gathered_congr {f g : Nat → MethodTable} {used : List (Nat × Nat)}
    (same : ∀ t ∈ used.map (·.1), f t = g t) : Offers.gathered f used = Offers.gathered g used := by
  rw [Offers.gathered, Offers.gathered]
  refine List.foldl_ext _ _ _ fun offers u member => ?_
  rw [same _ (List.mem_map.mpr ⟨u, member, rfl⟩)]

theorem plain_of_congr {f g : Nat → Option MethodTable} {t : TypeDecl}
    (same : ∀ u ∈ (m.usedTraits t).map (·.1), f u = g u) : m.plainOf f t = m.plainOf g t := by
  rw [plainOf, plainOf, gathered_congr]
  intro u member
  rw [offered, offered, same u member]

theorem mem_used_traits {t : TypeDecl} {id : Nat} :
    id ∈ (m.usedTraits t).map (·.1) ↔ ∃ clause ∈ t.uses, ∃ r ∈ clause.traits,
      m.usedTrait? r = some id := by
  have traits : (m.usedTraits t).map (·.1) =
      t.uses.flatMap fun clause => clause.traits.filterMap m.usedTrait? := by
    have places : t.uses = t.uses.zipIdx.map Prod.fst := (List.zipIdx_map_fst 0 _).symm
    conv_rhs => rw [places]
    rw [usedTraits, List.map_flatMap, List.flatMap_map]
    simp only [List.map_map, Function.comp_def, List.map_id']
  rw [traits]
  simp only [List.mem_flatMap, List.mem_filterMap]

theorem used_trait_found {r : TypeReference} {id : Nat} (numbered : Numbered TypeDecl.id m.types)
    (used : m.usedTrait? r = some id) : ∃ u, m.type? id = some u ∧ u.kind = .trait_ := by
  unfold usedTrait? at used
  split at used
  next u resolved =>
    split at used
    next trait =>
      cases used
      obtain ⟨k, -, there⟩ := Option.bind_eq_some_iff.mp resolved
      exact ⟨u, numbered.get (Array.mem_of_getElem? there), trait⟩
    · cases used
  · cases used

theorem trait_of_used {t : TypeDecl} {id : Nat} (numbered : Numbered TypeDecl.id m.types)
    (used : id ∈ (m.usedTraits t).map (·.1)) : ∃ u, m.type? id = some u ∧ u.kind = .trait_ := by
  obtain ⟨-, -, r, -, found⟩ := mem_used_traits.mp used
  exact used_trait_found numbered found

open Classical in
noncomputable def rank (m : CodeModel) (id : Nat) : Nat :=
  ((Finset.range m.types.size).filter fun other => TransGen m.UsesTrait id other).card

theorem rank_lt_of_uses (numbered : Numbered TypeDecl.id m.types) (acyclic : m.Acyclic) {d t : Nat}
    (uses : m.UsesTrait d t) : m.rank t < m.rank d := by
  classical
  refine Finset.card_lt_card (Finset.ssubset_iff_of_subset ?_ |>.mpr ⟨t, ?_, ?_⟩)
  · intro other listed
    simp only [Finset.mem_filter] at listed ⊢
    exact ⟨listed.1, .head uses listed.2⟩
  · obtain ⟨decl, -, used⟩ := id uses
    obtain ⟨u, found, -⟩ := trait_of_used numbered used
    simp only [Finset.mem_filter, Finset.mem_range]
    exact ⟨(Array.getElem?_eq_some_iff.mp found).1, .single uses⟩
  · simp only [Finset.mem_filter, not_and]
    exact fun _ => acyclic t

theorem rank_lt_size (acyclic : m.Acyclic) {id : Nat} (inside : id < m.types.size) :
    m.rank id < m.types.size := by
  classical
  have fewer : m.rank id < (Finset.range m.types.size).card := by
    refine Finset.card_lt_card (Finset.filter_ssubset.mpr ⟨id, Finset.mem_range.mpr inside, ?_⟩)
    exact acyclic id
  rwa [Finset.card_range] at fewer

/-- Beyond the rank of a type, the depth does not count. -/
theorem plain_to_deep (numbered : Numbered TypeDecl.id m.types) (acyclic : m.Acyclic)
    {depth depth' id : Nat} (deep : m.rank id < depth) (deep' : m.rank id < depth') :
    m.plainTo depth id = m.plainTo depth' id := by
  induction depth generalizing depth' id with
  | zero => exact absurd deep (Nat.not_lt_zero _)
  | succ depth ih =>
    cases depth' with
    | zero => exact absurd deep' (Nat.not_lt_zero _)
    | succ depth' =>
      rw [plainTo, plainTo]
      refine Option.bind_congr fun t found => plain_of_congr fun u used => ?_
      have lower := rank_lt_of_uses numbered acyclic ⟨t, found, used⟩
      exact ih (Nat.lt_of_lt_of_le lower (Nat.le_of_lt_succ deep))
        (Nat.lt_of_lt_of_le lower (Nat.le_of_lt_succ deep'))

/-- Where every trait is declared before it is used, no trait uses itself. -/
theorem acyclic_of_before (numbered : Numbered TypeDecl.id m.types)
    (before : ∀ t ∈ m.types.toList, ∀ u ∈ (m.usedTraits t).map (·.1), u < t.id) : m.Acyclic := by
  have step {d t : Nat} (uses : m.UsesTrait d t) : t < d := by
    obtain ⟨decl, found, used⟩ := uses
    rw [← numbered _ _ found]
    exact before decl (Array.mem_toList_iff.mpr (Array.mem_of_getElem? found)) _ used
  have path {d t : Nat} (path : TransGen m.UsesTrait d t) : t < d := by
    induction path with
    | single uses => exact step uses
    | tail _ uses ih => exact Nat.lt_trans (step uses) ih
  exact fun id cycle => Nat.lt_irrefl id (path cycle)

/-- No more depth is needed than there are types. -/
theorem plain_to_size (numbered : Numbered TypeDecl.id m.types) (acyclic : m.Acyclic) {depth : Nat}
    (deep : m.types.size ≤ depth) (id : Nat) : m.plainTo depth id = m.plain id := by
  cases found : m.type? id with
  | none =>
    have nothing (depth : Nat) : m.plainTo depth id = none := by
      cases depth with
      | zero => rfl
      | succ depth => rw [plainTo, found]; rfl
    rw [plain, nothing, nothing]
  | some t =>
    have inside : id < m.types.size := (Array.getElem?_eq_some_iff.mp found).1
    have lower := rank_lt_size acyclic inside
    exact plain_to_deep numbered acyclic (Nat.lt_of_lt_of_le lower deep) lower

/-- The plain definition: from the tables of the used traits, found in the same way. -/
theorem plain_eq (numbered : Numbered TypeDecl.id m.types) (acyclic : m.Acyclic) (id : Nat) :
    m.plain id = (m.type? id).bind (m.plainOf m.plain) := by
  rw [← plain_to_size numbered acyclic (Nat.le_succ _)]
  rfl

end CodeModel

end PhpAnalyser
