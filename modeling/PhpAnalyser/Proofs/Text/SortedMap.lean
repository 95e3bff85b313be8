import Mathlib.Data.List.Induction
import Mathlib.Data.List.Perm.Subperm
import Mathlib.Data.String.Basic
import PhpAnalyser.Text.SortedMap
/-!
What is found in a sorted map after each change.
-/
namespace PhpAnalyser

namespace SortedMap

variable {α : Type}

def Ordered (m : SortedMap α) : Prop := m.Pairwise fun a b => a.1 < b.1

def values (m : SortedMap α) : List α := m.map (·.2)

theorem find_cons (entry : String × α) (m : SortedMap α) (key : String) :
    find? (entry :: m) key = if key = entry.1 then some entry.2 else find? m key := by
  obtain ⟨first, value⟩ := entry
  by_cases same : key = first
  · simp [find?, same]
  · have other : (key == first) = false := by simpa using same
    simp [find?, List.lookup_cons, other, same]

theorem find_put (m : SortedMap α) (key other : String) (value : α) :
    (m.put key value).find? other = if other = key then some value else m.find? other := by
  induction m with
  | nil => rw [put, find_cons]
  | cons entry rest ih =>
    rw [put]
    split
    next same =>
      rw [find_cons, find_cons, ← same]
      split <;> rfl
    next apart =>
      split
      · rw [find_cons]
      · rw [find_cons, ih, find_cons]
        split
        next here => rw [if_neg fun same => apart (same.symm.trans here)]
        · rfl

theorem mem_put {m : SortedMap α} {key : String} {value : α} {entry : String × α}
    (member : entry ∈ m.put key value) : entry = (key, value) ∨ entry ∈ m := by
  induction m with
  | nil => exact .inl (List.mem_singleton.mp member)
  | cons first rest ih =>
    rw [put] at member
    split at member
    · exact (List.mem_cons.mp member).imp_right (List.mem_cons_of_mem first)
    split at member
    · exact List.mem_cons.mp member
    · rcases List.mem_cons.mp member with rfl | behind
      · exact .inr List.mem_cons_self
      · exact (ih behind).imp_right (List.mem_cons_of_mem first)

theorem Ordered.put {m : SortedMap α} (ordered : Ordered m) (key : String) (value : α) :
    Ordered (m.put key value) := by
  induction m with
  | nil => exact List.pairwise_singleton ..
  | cons entry rest ih =>
    obtain ⟨above, behind⟩ := List.pairwise_cons.mp ordered
    rw [SortedMap.put]
    split
    next same => exact List.pairwise_cons.mpr ⟨fun other member => same ▸ above other member, behind⟩
    next apart =>
      split
      next less =>
        refine List.pairwise_cons.mpr ⟨fun other member => ?_, ordered⟩
        rcases List.mem_cons.mp member with rfl | member
        · exact less
        · exact lt_trans less (above other member)
      next notLess =>
        refine List.pairwise_cons.mpr ⟨fun other member => ?_, ih behind⟩
        rcases mem_put member with rfl | member
        · exact lt_of_le_of_ne (not_lt.mp notLess) (Ne.symm apart)
        · exact above other member

theorem Ordered.mem_iff {m : SortedMap α} (ordered : Ordered m) (key : String) (value : α) :
    (key, value) ∈ m ↔ m.find? key = some value := by
  induction m with
  | nil => simp [find?]
  | cons entry rest ih =>
    obtain ⟨above, behind⟩ := List.pairwise_cons.mp ordered
    rw [List.mem_cons, find_cons, ih behind]
    split
    next same =>
      constructor
      · rintro (rfl | found)
        · rfl
        · have less := above _ ((ih behind).mpr found)
          exact absurd same (ne_of_gt less)
      · rintro ⟨⟩
        exact .inl (Prod.ext same rfl)
    next other =>
      refine ⟨fun found => found.resolve_left fun no => other (congrArg Prod.fst no), .inr⟩

theorem erase_cons (entry : String × α) (m : SortedMap α) (key : String) :
    erase (entry :: m) key = if entry.1 = key then m.erase key else entry :: m.erase key := by
  simp [erase, List.filter_cons]

theorem find_erase (m : SortedMap α) (key other : String) :
    (m.erase key).find? other = if other = key then none else m.find? other := by
  induction m with
  | nil => simp [erase, find?]
  | cons entry rest ih =>
    rw [erase_cons]
    split
    next here =>
      rw [ih, find_cons]
      split
      · rfl
      next apart => rw [if_neg fun same => apart (same.trans here)]
    next apart =>
      rw [find_cons, ih, find_cons]
      split
      next same => rw [if_neg fun gone => apart (same.symm.trans gone)]
      · rfl

theorem Ordered.erase {m : SortedMap α} (ordered : Ordered m) (key : String) :
    Ordered (m.erase key) :=
  ordered.filter _

/-- Besides the new value no other comes in. -/
theorem values_put (m : SortedMap α) (key : String) (value : α) :
    ∃ kept, (m.put key value).values.Perm (value :: kept) ∧ kept.Sublist m.values := by
  induction m with
  | nil => exact ⟨[], .refl _, .refl _⟩
  | cons entry rest ih =>
    rw [put]
    split
    · exact ⟨values rest, .refl _, List.sublist_cons_self ..⟩
    split
    · exact ⟨values (entry :: rest), .refl _, .refl _⟩
    · obtain ⟨kept, perm, sub⟩ := ih
      exact ⟨entry.2 :: kept, (perm.cons entry.2).trans (.swap ..), sub.cons_cons entry.2⟩

/-- A value that is found goes when its name is erased. -/
theorem values_erase {m : SortedMap α} {key : String} {value : α}
    (found : m.find? key = some value) : (value :: (m.erase key).values).Subperm m.values := by
  induction m with
  | nil => cases found
  | cons entry rest ih =>
    rw [find_cons] at found
    by_cases here : key = entry.1
    · rw [if_pos here, Option.some.injEq] at found
      rw [erase_cons, if_pos here.symm, ← found]
      exact ((List.filter_sublist.map _).cons_cons entry.2).subperm
    · rw [if_neg here] at found
      rw [erase_cons, if_neg (Ne.symm here)]
      exact (List.Perm.swap ..).subperm.trans ((List.subperm_cons entry.2).mpr (ih found))

theorem union_cons (m : SortedMap α) (entry : String × α) (rest : SortedMap α) :
    m.union (entry :: rest) = (m.put entry.1 entry.2).union rest := rfl

theorem Ordered.union {m : SortedMap α} (ordered : Ordered m) (entries : List (String × α)) :
    Ordered (m.union entries) := by
  induction entries generalizing m with
  | nil => exact ordered
  | cons entry rest ih => exact ih (ordered.put entry.1 entry.2)

theorem ordered_of_list (entries : List (String × α)) : Ordered (ofList entries) :=
  Ordered.union .nil entries

theorem mem_keys_union (m : SortedMap α) (entries : List (String × α)) (key : String) :
    ((m.union entries).find? key).isSome ↔ (m.find? key).isSome ∨ key ∈ entries.map (·.1) := by
  induction entries generalizing m with
  | nil => simp [union]
  | cons entry rest ih =>
    rw [union_cons, ih, find_put, List.map_cons, List.mem_cons]
    split
    next here => simp [here]
    next other => simp [other]

theorem Ordered.once {m : SortedMap α} (ordered : Ordered m) : (m.map (·.1)).Nodup :=
  List.pairwise_map.mpr (ordered.imp ne_of_lt)

/-- Where both maps have a value, that of the second counts. -/
theorem find_union (m : SortedMap α) {other : SortedMap α} (once : (other.map (·.1)).Nodup)
    (key : String) : (m.union other).find? key = (other.find? key).or (m.find? key) := by
  induction other generalizing m with
  | nil => rfl
  | cons entry rest ih =>
    rw [List.map_cons, List.nodup_cons] at once
    rw [union_cons, ih _ once.2, find_put, find_cons]
    split
    next here =>
      have unknown : find? rest key = none := by
        rw [find?, List.lookup_eq_none_iff]
        intro row listed
        have other : key ≠ row.1 := fun same =>
          once.1 (List.mem_map.mpr ⟨row, listed, same.symm.trans here⟩)
        simpa using other
      rw [unknown]
      rfl
    · rfl

theorem find_of_list {entries : List (String × α)} (once : (entries.map (·.1)).Nodup)
    (key : String) : (ofList entries).find? key = entries.lookup key := by
  rw [ofList, find_union [] once]
  exact Option.or_none

/-- A value that no map contradicts is that of all maps together, if one of them has it. -/
theorem find_merged {maps : List (SortedMap α)} (ordered : ∀ m ∈ maps, Ordered m) {key : String}
    {value : α} (agreed : ∀ m ∈ maps, m.find? key = none ∨ m.find? key = some value)
    (known : ∃ m ∈ maps, m.find? key = some value) :
    (maps.foldl union []).find? key = some value := by
  induction maps using List.reverseRecOn with
  | nil => simp at known
  | append_singleton maps last ih =>
    rw [List.foldl_append, List.foldl_cons, List.foldl_nil, find_union _ (ordered last (by simp)).once]
    rcases agreed last (by simp) with none | found
    · rw [none, Option.none_or]
      obtain ⟨m, listed, found⟩ := known
      refine ih (fun m member => ordered m (List.mem_append_left _ member))
        (fun m member => agreed m (List.mem_append_left _ member)) ⟨m, ?_, found⟩
      refine (List.mem_append.mp listed).resolve_right fun is_last => ?_
      rw [List.mem_singleton.mp is_last, none] at found
      cases found
    · rw [found, Option.some_or]

end SortedMap

end PhpAnalyser
