import Mathlib.Data.List.Nodup
import PhpAnalyser.Code.Symbol
/-!
Vectors whose entries carry their places as ids, and tables of such ids by the keys of names.
-/
namespace PhpAnalyser

def Numbered {α : Type} (id : α → Nat) (entries : Array α) : Prop :=
  ∀ (i : Nat) (x : α), entries[i]? = some x → id x = i

namespace Numbered

variable {α : Type} {id : α → Nat} {entries : Array α}

theorem empty : Numbered id #[] := by
  intro i x found
  simp at found

theorem push (numbered : Numbered id entries) {x : α} (same : id x = entries.size) :
    Numbered id (entries.push x) := by
  intro i y found
  rw [Array.getElem?_push] at found
  split at found
  · rename_i last
    cases found
    rw [same, last]
  · exact numbered i y found

theorem modify (numbered : Numbered id entries) {f : α → α} (same : ∀ x, id (f x) = id x)
    (k : Nat) : Numbered id (entries.modify k f) := by
  intro i y found
  rw [Array.getElem?_modify] at found
  split at found
  · obtain ⟨x, there, rfl⟩ := Option.map_eq_some_iff.mp found
    rw [same, numbered i x there]
  · exact numbered i y found

theorem get (numbered : Numbered id entries) {x : α} (member : x ∈ entries) :
    entries[id x]? = some x := by
  obtain ⟨i, found⟩ := Array.mem_iff_getElem?.mp member
  rwa [numbered i x found]

theorem lt (numbered : Numbered id entries) {x : α} (member : x ∈ entries) :
    id x < entries.size :=
  (Array.getElem?_eq_some_iff.mp (numbered.get member)).1

theorem inj (numbered : Numbered id entries) {x y : α} (here : x ∈ entries) (there : y ∈ entries)
    (same : id x = id y) : x = y := by
  have found := numbered.get here
  rw [same, numbered.get there] at found
  exact (Option.some.inj found).symm

/-- Ids are listed once. -/
theorem nodup (numbered : Numbered id entries) : (entries.toList.map id).Nodup := by
  rw [List.nodup_iff_getElem?_ne_getElem?]
  intro i j before inside same
  rw [List.length_map] at inside
  have low : i < entries.toList.length := Nat.lt_trans before inside
  simp only [List.getElem?_map, List.getElem?_eq_getElem low, List.getElem?_eq_getElem inside,
    Option.map_some, Option.some.injEq] at same
  have first : id entries.toList[i] = i := numbered i _ (by simp)
  have second : id entries.toList[j] = j := numbered j _ (by simp)
  omega

end Numbered

/-- An entry of a vector after one of its entries was changed. -/
theorem mem_modify {α : Type} {entries : Array α} {k : Nat} {f : α → α} {x : α}
    (member : x ∈ entries.modify k f) :
    (∃ old, entries[k]? = some old ∧ x = f old) ∨ ∃ i, i ≠ k ∧ entries[i]? = some x := by
  obtain ⟨i, found⟩ := Array.mem_iff_getElem?.mp member
  rw [Array.getElem?_modify] at found
  split at found
  · rename_i same
    obtain ⟨old, there, rfl⟩ := Option.map_eq_some_iff.mp found
    exact .inl ⟨old, same ▸ there, rfl⟩
  · rename_i other
    exact .inr ⟨i, Ne.symm other, found⟩

/-- The table lists the names by their keys, no key twice. -/
structure Keyed (table : List (String × Nat)) (named : List (String × Nat)) : Prop where
  rows : table = named.map fun entry => (symbolKey entry.1, entry.2)
  apart : (table.map Prod.fst).Nodup

section Lookup

variable {α β : Type} [BEq β] [LawfulBEq β] {table : List (β × α)} {key : β} {id : α}

theorem lookup_eq_none (unknown : table.lookup key = none) : key ∉ table.map Prod.fst := by
  intro listed
  obtain ⟨row, member, rfl⟩ := List.mem_map.mp listed
  have different := List.lookup_eq_none_iff.mp unknown row member
  simp at different

theorem mem_of_lookup (found : table.lookup key = some id) : (key, id) ∈ table := by
  obtain ⟨before, behind, rfl, -⟩ := List.lookup_eq_some_iff.mp found
  simp

theorem lookup_of_mem (apart : (table.map Prod.fst).Nodup) (member : (key, id) ∈ table) :
    table.lookup key = some id := by
  cases found : table.lookup key with
  | none =>
    exact absurd (List.mem_map.mpr ⟨(key, id), member, rfl⟩) (lookup_eq_none found)
  | some other =>
    have same := List.inj_on_of_nodup_map apart (mem_of_lookup found) member rfl
    rw [(Prod.mk.inj same).2]

end Lookup

/-- Adding a name does not change what is found. -/
theorem lookup_add {table : List (String × Nat)} {name key : String} {id found : Nat}
    (known : table.lookup key = some found) :
    (SymbolTable.addFirst table name id).lookup key = some found := by
  unfold SymbolTable.addFirst
  split
  · exact known
  · rw [List.lookup_append, known]
    rfl

theorem lookup_added {table : List (String × Nat)} {name : String} {id : Nat}
    (unknown : table.lookup (symbolKey name) = none) :
    (SymbolTable.addFirst table name id).lookup (symbolKey name) = some id := by
  simp [SymbolTable.addFirst, unknown, List.lookup_append]

namespace Keyed

variable {table named : List (String × Nat)}

theorem nil : Keyed [] [] := ⟨rfl, by simp⟩

theorem add (keyed : Keyed table named) {name : String} {id : Nat}
    (unknown : table.lookup (symbolKey name) = none) :
    Keyed (SymbolTable.addFirst table name id) (named ++ [(name, id)]) := by
  have longer : SymbolTable.addFirst table name id = table ++ [(symbolKey name, id)] := by
    simp [SymbolTable.addFirst, unknown]
  rw [longer]
  constructor
  · rw [keyed.rows, List.map_append, List.map_singleton]
  · rw [List.map_append, List.map_singleton, List.nodup_append]
    refine ⟨keyed.apart, by simp, ?_⟩
    rintro key listed other new rfl
    rw [List.mem_singleton.mp new] at listed
    exact lookup_eq_none unknown listed

theorem find (keyed : Keyed table named) {name : String} {id : Nat}
    (member : (name, id) ∈ named) : table.lookup (symbolKey name) = some id := by
  refine lookup_of_mem keyed.apart ?_
  rw [keyed.rows]
  exact List.mem_map.mpr ⟨(name, id), member, rfl⟩

theorem listed (keyed : Keyed table named) {row : String × Nat} (member : row ∈ table) :
    ∃ name, (name, row.2) ∈ named ∧ symbolKey name = row.1 := by
  rw [keyed.rows] at member
  obtain ⟨⟨name, id⟩, there, rfl⟩ := List.mem_map.mp member
  exact ⟨name, there, rfl⟩

end Keyed

end PhpAnalyser
