import PhpAnalyser.Measure.Amount
import PhpAnalyser.Measure.Renaming
import PhpAnalyser.Proofs.Text.SortedMap
/-!
What a table of new names does to a map. An entry moves the value that its old name has when its
turn comes. A value that stood under the new name is lost, and nothing else is.
-/
namespace PhpAnalyser

namespace Renaming

open SortedMap (find?)

variable {α : Type}

def sources (t : Renaming) : List String := t.map (·.1)

def targets (t : Renaming) : List String := t.map (·.2)

/-- The last entry for a name whose old name is there when its turn comes, and the value that it
finds. -/
def LastMove (t : Renaming) (m : SortedMap α) (name : String) (value : α) : Prop :=
  ∃ before source behind, t = before ++ (source, name) :: behind ∧
    find? (apply before m) source = some value ∧
    ∀ between other rest, behind = between ++ (other, name) :: rest →
      find? (apply (before ++ (source, name) :: between) m) other = none

/-- No entry for a name finds a value when its turn comes. -/
def NoMove (t : Renaming) (m : SortedMap α) (name : String) : Prop :=
  ∀ before source behind, t = before ++ (source, name) :: behind →
    find? (apply before m) source = none

variable {t : Renaming} {m : SortedMap α} {entry : String × String} {name : String}

theorem rename_of_found {value : α} (found : m.find? entry.1 = some value) :
    rename m entry = (m.erase entry.1).put entry.2 value := by
  rw [rename, found]

theorem rename_of_absent (absent : m.find? entry.1 = none) : rename m entry = m := by
  rw [rename, absent]

/-- A name that is not the new one of an entry has its value, unless it is the old one. -/
theorem find_rename_of_ne (other : name ≠ entry.2) :
    (rename m entry).find? name = if name = entry.1 then none else m.find? name := by
  cases found : m.find? entry.1 with
  | none =>
    rw [rename_of_absent found]
    split
    next same => rw [same, found]
    · rfl
  | some value =>
    rw [rename_of_found found, SortedMap.find_put, if_neg other, SortedMap.find_erase]

theorem ordered_rename (ordered : m.Ordered) : (rename m entry).Ordered := by
  cases found : m.find? entry.1 with
  | none => rwa [rename_of_absent found]
  | some value =>
    rw [rename_of_found found]
    exact (ordered.erase entry.1).put entry.2 value

theorem values_rename (m : SortedMap α) (entry : String × String) :
    (rename m entry).values.Subperm m.values := by
  cases found : m.find? entry.1 with
  | none => rw [rename_of_absent found]
  | some value =>
    rw [rename_of_found found]
    obtain ⟨kept, perm, sub⟩ := SortedMap.values_put (m.erase entry.1) entry.2 value
    exact (perm.subperm.trans (sub.cons_cons value).subperm).trans (SortedMap.values_erase found)

theorem sources_snoc (t : Renaming) (entry : String × String) :
    sources (t ++ [entry]) = t.sources ++ [entry.1] := List.map_append

theorem targets_snoc (t : Renaming) (entry : String × String) :
    targets (t ++ [entry]) = t.targets ++ [entry.2] := List.map_append

theorem apply_snoc (t : Renaming) (m : SortedMap α) :
    apply (t ++ [entry]) m = rename (t.apply m) entry := by
  rw [apply, List.foldl_append]
  rfl

theorem ordered_apply (ordered : m.Ordered) : (t.apply m).Ordered := by
  induction t generalizing m with
  | nil => exact ordered
  | cons entry rest ih => exact ih (ordered_rename ordered)

theorem values_apply (t : Renaming) (m : SortedMap α) : (t.apply m).values.Subperm m.values := by
  induction t generalizing m with
  | nil => exact .refl _
  | cons entry rest ih => exact (ih _).trans (values_rename m entry)

theorem apply_of_absent (absent : ∀ name ∈ t.sources, m.find? name = none) : t.apply m = m := by
  induction t with
  | nil => rfl
  | cons entry rest ih =>
    have first : rename m entry = m := rename_of_absent (absent _ List.mem_cons_self)
    rw [apply, List.foldl_cons, first]
    exact ih fun name listed => absent name (List.mem_cons_of_mem _ listed)

/-- A name that is no new one has its value, unless it is an old one. -/
theorem find_apply_of_not_target (other : name ∉ t.targets) :
    (t.apply m).find? name = if name ∈ t.sources then none else m.find? name := by
  induction t using List.reverseRecOn with
  | nil => rfl
  | append_singleton t entry ih =>
    rw [targets_snoc, List.mem_append, List.mem_singleton, not_or] at other
    rw [apply_snoc, find_rename_of_ne other.2, ih other.1]
    simp only [sources_snoc, List.mem_append, List.mem_singleton]
    by_cases here : name = entry.1 <;> simp [here]

/-- A further entry for another name moves nothing there. -/
theorem LastMove.snoc {value : α} (last : t.LastMove m name value)
    (still : entry.2 = name → find? (apply t m) entry.1 = none) :
    LastMove (t ++ [entry]) m name value := by
  obtain ⟨before, source, behind, rfl, found, none⟩ := last
  refine ⟨before, source, behind ++ [entry], by simp, found, fun between other rest split => ?_⟩
  cases rest using List.reverseRecOn with
  | nil =>
    obtain ⟨rfl, same⟩ := List.append_inj' split rfl
    obtain rfl := List.singleton_inj.mp same
    exact still rfl
  | append_singleton rest last =>
    rw [← List.cons_append, ← List.append_assoc] at split
    exact none between other rest (List.append_inj' split rfl).1

theorem NoMove.snoc (idle : t.NoMove m name)
    (still : entry.2 = name → find? (apply t m) entry.1 = none) :
    NoMove (t ++ [entry]) m name := by
  intro before source behind split
  cases behind using List.reverseRecOn with
  | nil =>
    obtain ⟨rfl, same⟩ := List.append_inj' split rfl
    obtain rfl := List.singleton_inj.mp same
    exact still rfl
  | append_singleton behind last =>
    rw [← List.cons_append, ← List.append_assoc] at split
    exact idle before source behind (List.append_inj' split rfl).1

/-- A name that is no old one has the value that was moved there last, or else its own. -/
theorem find_apply_of_not_source (other : name ∉ t.sources) :
    (∃ value, t.LastMove m name value ∧ (t.apply m).find? name = some value) ∨
      t.NoMove m name ∧ (t.apply m).find? name = m.find? name := by
  induction t using List.reverseRecOn with
  | nil => exact .inr ⟨by simp [NoMove], rfl⟩
  | append_singleton t entry ih =>
    rw [sources_snoc, List.mem_append, List.mem_singleton, not_or] at other
    rw [apply_snoc]
    by_cases moves : entry.2 = name ∧ (find? (apply t m) entry.1).isSome
    · obtain ⟨rfl, some⟩ := moves
      obtain ⟨value, found⟩ := Option.isSome_iff_exists.mp some
      refine .inl ⟨value, ⟨t, entry.1, [], rfl, found, by simp⟩, ?_⟩
      rw [rename_of_found found, SortedMap.find_put, if_pos rfl]
    · have still (named : entry.2 = name) : find? (apply t m) entry.1 = none := by
        simpa [named] using moves
      have same : (rename (apply t m) entry).find? name = (apply t m).find? name := by
        by_cases named : entry.2 = name
        · rw [rename_of_absent (still named)]
        · rw [find_rename_of_ne (Ne.symm named), if_neg other.2]
      rw [same]
      exact (ih other.1).imp (fun ⟨value, last, found⟩ => ⟨value, last.snoc still, found⟩)
        fun ⟨idle, own⟩ => ⟨idle.snoc still, own⟩

/-- Only a value whose name is taken over is lost. A name out of the table keeps its value, an old
name that is no new one has none, and a new name that is no old one has what was moved there last,
or else its own. Where no name is both, a second application changes nothing. -/
theorem apply_keeps_or_moves (t : Renaming) (m : SortedMap α) :
    (t.apply m).values.Subperm m.values ∧
    (t.apply m).length ≤ m.length ∧
    (m.Ordered → (t.apply m).Ordered) ∧
    (∀ name, name ∉ t.sources → name ∉ t.targets → (t.apply m).find? name = m.find? name) ∧
    (∀ name ∈ t.sources, name ∉ t.targets → (t.apply m).find? name = none) ∧
    (∀ name ∈ t.targets, name ∉ t.sources →
      (∃ value, t.LastMove m name value ∧ (t.apply m).find? name = some value) ∨
        t.NoMove m name ∧ (t.apply m).find? name = m.find? name) ∧
    ((∀ name ∈ t.targets, name ∉ t.sources) → t.apply (t.apply m) = t.apply m) := by
  have values := values_apply t m
  have gone (name : String) (old : name ∈ t.sources) (new : name ∉ t.targets) :
      (t.apply m).find? name = none := by
    rw [find_apply_of_not_target new, if_pos old]
  refine ⟨values, ?_, ordered_apply, fun name old new => ?_, gone,
    fun name _ old => find_apply_of_not_source old, fun apart => ?_⟩
  · simpa [SortedMap.values] using values.length_le
  · rw [find_apply_of_not_target new, if_neg old]
  · exact apply_of_absent fun name old => gone name old fun new => apart name new old

/-- Three metrics under the names that a test runner logs: the first one is taken over by the second,
and the third has a new name. -/
theorem apply_keeps_or_moves_phpunit :
    let m := MetricMap.ofCounts [("ccn", 3), ("ccn2", 5), ("noc", 2)]
    (∀ name ∈ phpunit.targets, name ∉ phpunit.sources) ∧
      phpunit.apply m = MetricMap.ofCounts [("ccn", 5), ("classes", 2)] ∧
      find? (phpunit.apply m) "noc" = none ∧
      phpunit.LastMove m "ccn" (.whole 5) ∧
      phpunit.apply (phpunit.apply m) = phpunit.apply m := by
  intro m
  have apart : ∀ name ∈ phpunit.targets, name ∉ phpunit.sources := by decide
  have target : "ccn" ∈ phpunit.targets := by decide
  have source : "noc" ∈ phpunit.sources := by decide
  have new_name : "noc" ∉ phpunit.targets := by decide
  obtain ⟨-, -, -, -, gone, moved, again⟩ := apply_keeps_or_moves phpunit m
  refine ⟨apart, by decide, gone "noc" source new_name, ?_, again apart⟩
  rcases moved "ccn" target (apart "ccn" target) with ⟨value, last, found⟩ | ⟨-, own⟩
  · have five : find? (phpunit.apply m) "ccn" = some (.whole 5) := by decide
    rwa [Option.some.inj (five.symm.trans found)]
  · have other : find? (phpunit.apply m) "ccn" ≠ find? m "ccn" := by decide
    exact absurd own other

end Renaming

end PhpAnalyser
