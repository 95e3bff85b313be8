import Mathlib.Data.List.Lex
import Mathlib.Data.List.Sort
import PhpAnalyser.Files.Discovery
/-!
The order of paths. Paths are compared component by component, and paths with the same components
are the same path. Paths that are put in order without repeats are increasing, and are determined by
which paths they are.
-/
namespace PhpAnalyser

/-- Lists are compared by what stands for their members. -/
theorem lex_map {r : α → α → Prop} {q : β → β → Prop} {f : α → β} (injective : Function.Injective f)
    (same : ∀ a b, q (f a) (f b) ↔ r a b) (xs ys : List α) :
    List.Lex q (xs.map f) (ys.map f) ↔ List.Lex r xs ys := by
  induction xs generalizing ys with
  | nil => cases ys <;> simp
  | cons x xs ih =>
    cases ys with
    | nil => simp
    | cons y ys => simp [List.cons_lex_cons_iff, same, ih, injective.eq_iff]

namespace Path

/-- The root comes first, then the current directory, the parent, and names in the order of their
characters. -/
def Component.Before : Component → Component → Prop
  | _, root => False
  | root, _ => True
  | _, current => False
  | current, _ => True
  | _, parent => False
  | parent, _ => True
  | name a, name b => a < b

/-- The first different components decide; a path comes in front of those that go on behind it. -/
def Before (a b : String) : Prop := List.Lex Component.Before (components a) (components b)

theorem Component.key_injective : Function.Injective Component.key := by
  have chars : Function.Injective Char.toNat := fun a b => Char.toNat_inj.mp
  intro c d same
  cases c <;> cases d <;> simp [key] at same ⊢
  exact String.toList_injective (List.map_injective_iff.mpr chars same)

theorem Component.key_lt_key (c d : Component) : c.key < d.key ↔ c.Before d := by
  have chars : Function.Injective Char.toNat := fun a b => Char.toNat_inj.mp
  cases c with
  | name a =>
    cases d with
    | name b =>
      have texts : a.toList.map Char.toNat < b.toList.map Char.toNat ↔ a < b :=
        lex_map chars (fun a b => Iff.rfl) a.toList b.toList
      simp [key, Before, texts]
    | _ => simp [key, Before, List.cons_lt_cons_iff]
  | _ => cases d <;> simp [key, Before, List.cons_lt_cons_iff]

theorem key_eq_key (a b : String) : key a = key b ↔ components a = components b :=
  (List.map_injective_iff.mpr Component.key_injective).eq_iff

theorem key_lt_key (a b : String) : key a < key b ↔ Before a b :=
  lex_map Component.key_injective Component.key_lt_key (components a) (components b)

theorem is_before_iff (a b : String) : isBefore a b = true ↔ key a < key b := by
  simp [isBefore, List.lex_eq_true_iff_lex]

end Path

namespace Discovery

theorem precedes_iff (a b : String) : precedes a b = true ↔ Path.key a ≤ Path.key b := by
  rw [precedes, Bool.not_eq_true', ← Bool.not_eq_true, Path.is_before_iff, not_lt]

theorem sorted_by_key (paths : List String) :
    (paths.mergeSort precedes).Pairwise fun a b => Path.key a ≤ Path.key b := by
  have sorted : (paths.mergeSort precedes).Pairwise (precedes · ·) := List.pairwise_mergeSort
    (by simpa [precedes_iff] using fun a b c => le_trans)
    (by simpa [precedes_iff] using fun a b => le_total (Path.key a) (Path.key b)) paths
  simpa [precedes_iff] using sorted

theorem drop_repeats_sublist (paths : List String) : (dropRepeats paths).Sublist paths := by
  induction paths with
  | nil => simp [dropRepeats]
  | cons path rest ih =>
    unfold dropRepeats
    cases left : dropRepeats rest with
    | nil => simp
    | cons next more =>
      rw [left] at ih
      dsimp only
      split
      · exact ((List.sublist_cons_self next more).trans ih).cons_cons path
      · exact ih.cons_cons path

/-- Every path stays, if only in another spelling. -/
theorem mem_drop_repeats {path : String} {paths : List String} (member : path ∈ paths) :
    ∃ kept ∈ dropRepeats paths, Path.key kept = Path.key path := by
  induction paths with
  | nil => simp at member
  | cons first rest ih =>
    unfold dropRepeats
    cases left : dropRepeats rest with
    | nil =>
      rw [left] at ih
      cases member with
      | head => simp
      | tail _ member => simpa using ih member
    | cons next more =>
      rw [left] at ih
      dsimp only
      split
      next same =>
        cases member with
        | head => simp
        | tail _ member => simpa [same] using ih member
      next =>
        cases member with
        | head => simp
        | tail _ member =>
          obtain ⟨kept, inside, same⟩ := ih member
          exact ⟨kept, List.mem_cons_of_mem first inside, same⟩

theorem drop_repeats_increasing {paths : List String}
    (sorted : paths.Pairwise fun a b => Path.key a ≤ Path.key b) :
    (dropRepeats paths).Pairwise fun a b => Path.key a < Path.key b := by
  induction paths with
  | nil => simp [dropRepeats]
  | cons path rest ih =>
    obtain ⟨first, sorted⟩ := List.pairwise_cons.mp sorted
    have increasing := ih sorted
    have kept := (drop_repeats_sublist rest).subset
    unfold dropRepeats
    cases left : dropRepeats rest with
    | nil => simp
    | cons next more =>
      rw [left] at increasing kept
      obtain ⟨later, increasing⟩ := List.pairwise_cons.mp increasing
      have le : Path.key path ≤ Path.key next := first next (kept (by simp))
      dsimp only
      split
      next same =>
        apply List.pairwise_cons.mpr
        exact ⟨fun other member => same ▸ later other member, increasing⟩
      next other =>
        have lt : Path.key path < Path.key next := lt_of_le_of_ne le other
        apply List.pairwise_cons.mpr
        refine ⟨?_, List.pairwise_cons.mpr ⟨later, increasing⟩⟩
        simpa [lt] using fun other member => lt.trans (later other member)

theorem arrange_increasing (paths : List String) :
    (arrange paths).Pairwise fun a b => Path.key a < Path.key b :=
  drop_repeats_increasing (sorted_by_key paths)

theorem mem_of_mem_arrange {path : String} {paths : List String} (member : path ∈ arrange paths) :
    path ∈ paths :=
  List.mem_mergeSort.mp ((drop_repeats_sublist _).subset member)

theorem mem_arrange {path : String} {paths : List String} (member : path ∈ paths) :
    ∃ kept ∈ arrange paths, Path.key kept = Path.key path :=
  mem_drop_repeats (List.mem_mergeSort.mpr member)

theorem keys_arrange (paths : List String) (k : List (List Nat)) :
    k ∈ (arrange paths).map Path.key ↔ k ∈ paths.map Path.key := by
  constructor
  · intro member
    obtain ⟨path, inside, same⟩ := List.mem_map.mp member
    exact List.mem_map.mpr ⟨path, mem_of_mem_arrange inside, same⟩
  · intro member
    obtain ⟨path, inside, same⟩ := List.mem_map.mp member
    obtain ⟨kept, there, eq⟩ := mem_arrange inside
    exact List.mem_map.mpr ⟨kept, there, eq.trans same⟩

/-- Neither order nor repeats nor spelling of the paths matter. -/
theorem arrange_unique {paths paths' : List String}
    (same : ∀ k, k ∈ paths.map Path.key ↔ k ∈ paths'.map Path.key) :
    (arrange paths).map Path.components = (arrange paths').map Path.components := by
  have increasing (paths : List String) : ((arrange paths).map Path.key).Pairwise (· < ·) :=
    List.pairwise_map.mpr (arrange_increasing paths)
  have keys : (arrange paths).map Path.key = (arrange paths').map Path.key := by
    apply (increasing paths).eq_of_mem_iff (increasing paths')
    intro k
    rw [keys_arrange, keys_arrange, same]
  have apart := List.map_injective_iff.mpr Path.Component.key_injective
  apply List.map_injective_iff.mpr apart
  calc
    _ = (arrange paths).map Path.key := by rw [List.map_map]; rfl
    _ = (arrange paths').map Path.key := keys
    _ = _ := by rw [List.map_map]; rfl

end Discovery

end PhpAnalyser
