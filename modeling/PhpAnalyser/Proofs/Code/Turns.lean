import PhpAnalyser.Proofs.Code.Plain
/-!
The composition of all types as a list of turns. In its turn a type gets its table, or fails, from
what the traits it uses offer at that time. A used trait that has not had its turn yet is one that
was itself in work, so that it gets to the type along the traits that are used.
-/
namespace PhpAnalyser

open Relation (TransGen ReflTransGen)

namespace Composing

def shown (m : CodeModel) (s : Composing) (id : Nat) : MethodTable :=
  (s.resultOf id).table?.getD (fallback m id)

/-- Each type offers its table in a state, or the methods it declares. -/
theorem shown_cases (m : CodeModel) (s : Composing) (id : Nat) :
    shown m s id = fallback m id ∨ s.resultOf id = .composed (shown m s id) := by
  rw [shown]
  cases s.resultOf id with
  | pending => exact .inl rfl
  | composed table => exact .inr rfl
  | failed => exact .inl rfl

/-- A type, with the state in which its composition ends. -/
structure Turn where
  state : Composing
  type : TypeDecl

namespace Turn

variable (m : CodeModel) (turn : Turn)

def offers : Offers := Offers.gathered (shown m turn.state) (m.usedTraits turn.type)

def verdict : Except (List Diagnostic) MethodTable := m.tableOf turn.type (turn.offers m)

def found : List Diagnostic :=
  match turn.verdict m with
  | .ok _ => []
  | .error found => found

def after : Composing :=
  match turn.verdict m with
  | .ok table => turn.state.close turn.type.id table
  | .error found => turn.state.fail turn.type.id found

/-- A type can have its turn if it waits, and if those of its traits that wait get to it. -/
structure Due : Prop where
  waits : turn.state.resultOf turn.type.id = .pending
  known : m.type? turn.type.id = some turn.type
  around : ∀ u ∈ (m.usedTraits turn.type).map (·.1), turn.state.resultOf u = .pending →
    ReflTransGen m.UsesTrait u turn.type.id

end Turn

inductive Turns (m : CodeModel) : List Turn → Composing → Prop
  | start : Turns m [] (.start m)
  | next {turns : List Turn} {turn : Turn} (before : Turns m turns turn.state) (due : turn.Due m) :
      Turns m (turns ++ [turn]) (turn.after m)

variable {m : CodeModel} {s : Composing} {turn : Turn}

theorem Turn.size_after : (turn.after m).results.size = turn.state.results.size := by
  rw [Turn.after]
  split
  · exact Array.size_modify ..
  · exact Array.size_modify ..

theorem Turn.after_result (inside : turn.type.id < turn.state.results.size) (i : Nat) :
    (turn.after m).resultOf i =
      if i = turn.type.id then .ofTable? (turn.verdict m).toOption else turn.state.resultOf i := by
  rw [Turn.after]
  cases turn.verdict m with
  | ok table => simp [close_result, inside, Composition.ofTable?, Except.toOption]
  | error found => simp [fail_result, inside, Composition.ofTable?, Except.toOption]

theorem Turn.after_known (inside : turn.type.id < turn.state.results.size) (i : Nat) :
    (turn.after m).resultOf i ≠ .pending ↔
      i = turn.type.id ∨ turn.state.resultOf i ≠ .pending := by
  rw [Turn.after_result inside]
  by_cases here : i = turn.type.id
  · rw [if_pos here]
    cases (turn.verdict m).toOption <;> simp [Composition.ofTable?, here]
  · simp [here]

theorem Turn.after_collisions :
    (turn.after m).collisions = turn.state.collisions ++ turn.found m := by
  rw [Turn.after, Turn.found]
  cases turn.verdict m with
  | ok table => exact (List.append_nil _).symm
  | error found => rfl

namespace Turns

variable {turns : List Turn}

theorem size (run : Turns m turns s) : s.results.size = m.types.size := by
  induction run with
  | start => exact Array.size_map ..
  | next _ _ ih => rw [Turn.size_after, ih]

theorem inside (before : Turns m turns turn.state) (due : turn.Due m) :
    turn.type.id < turn.state.results.size := by
  rw [before.size]
  exact (Array.getElem?_eq_some_iff.mp due.known).1

/-- What was said before a turn is what the turns before it led to. -/
theorem split {before later : List Turn} (run : Turns m (before ++ turn :: later) s) :
    Turns m before turn.state ∧ turn.Due m := by
  generalize listed : before ++ turn :: later = turns at run
  induction run generalizing later with
  | start => simp at listed
  | @next turns last earlier due ih =>
    rcases List.eq_nil_or_concat later with rfl | ⟨more, other, rfl⟩
    · obtain ⟨rfl, same⟩ := List.append_inj' listed rfl
      cases same
      exact ⟨earlier, due⟩
    · rw [List.concat_eq_append, ← List.cons_append, ← List.append_assoc] at listed
      exact ih (List.append_inj' listed rfl).1

theorem due (run : Turns m turns s) (listed : turn ∈ turns) : turn.Due m := by
  obtain ⟨before, later, rfl⟩ := List.append_of_mem listed
  exact run.split.2

/-- Those types have their result that have had their turn. -/
theorem listed (run : Turns m turns s) (i : Nat) :
    s.resultOf i ≠ .pending ↔ i ∈ turns.map (·.type.id) := by
  induction run with
  | start => simp [start_result]
  | @next turns turn before due ih =>
    rw [Turn.after_known (inside before due), List.map_append, List.mem_append, ← ih, or_comm,
      List.map_singleton, List.mem_singleton]

/-- A type has one turn. -/
theorem once (run : Turns m turns s) : (turns.map (·.type.id)).Nodup := by
  induction run with
  | start => exact .nil
  | @next turns turn before due ih =>
    rw [List.map_append, List.nodup_append]
    refine ⟨ih, List.nodup_singleton _, fun i old j new same => ?_⟩
    rw [same, List.mem_singleton.mp new] at old
    exact (before.listed _).mpr old due.waits

/-- The result of a type is the verdict in its turn. -/
theorem result (run : Turns m turns s) (listed : turn ∈ turns) :
    s.resultOf turn.type.id = .ofTable? (turn.verdict m).toOption := by
  induction run with
  | start => cases listed
  | @next turns last before due ih =>
    rw [Turn.after_result (inside before due)]
    rcases List.mem_append.mp listed with old | new
    · have known : last.state.resultOf turn.type.id ≠ .pending :=
        (before.listed _).mpr (List.mem_map.mpr ⟨turn, old, rfl⟩)
      have other : turn.type.id ≠ last.type.id := fun same => known (same ▸ due.waits)
      rw [if_neg other]
      exact ih old
    · rw [List.mem_singleton.mp new, if_pos rfl]

/-- What was known in a turn stays. -/
theorem kept (run : Turns m turns s) (listed : turn ∈ turns) {i : Nat}
    (known : turn.state.resultOf i ≠ .pending) : s.resultOf i = turn.state.resultOf i := by
  obtain ⟨before, later, rfl⟩ := List.append_of_mem listed
  obtain ⟨earlier, member, same⟩ := List.mem_map.mp ((run.split.1.listed i).mp known)
  rw [← same, run.split.1.result member, run.result (List.mem_append_left _ member)]

/-- All that is reported was found in a turn. -/
theorem told (run : Turns m turns s) : s.collisions = turns.flatMap (·.found m) := by
  induction run with
  | start => rfl
  | next before due ih => rw [Turn.after_collisions, ih, List.flatMap_append, List.flatMap_singleton]

/-- Each type offers a table in which every binding stands under its name. -/
theorem tidy (run : Turns m turns s) (id : Nat) : (shown m s id).Tidy := by
  have own : (fallback m id).Tidy := by
    rw [fallback]
    cases m.type? id with
    | none => exact .nil
    | some t => exact CodeModel.declared_tidy t
  rw [shown]
  cases known : s.resultOf id with
  | pending => exact own
  | failed => exact own
  | composed table =>
    obtain ⟨turn, listed, rfl⟩ := List.mem_map.mp ((run.listed id).mp (by simp [known]))
    rw [run.result listed] at known
    cases verdict : turn.verdict m with
    | ok made =>
      rw [verdict] at known
      cases known
      exact (CodeModel.table_of_ok (Offers.gathered_tidy _) verdict).tidy
    | error found =>
      rw [verdict] at known
      cases known

end Turns

/-- Where no trait uses itself, what is known is what the plain definition says. -/
theorem Turns.plain (numbered : Numbered TypeDecl.id m.types) (acyclic : m.Acyclic)
    {turns : List Turn} (run : Turns m turns s) :
    ∀ i, s.resultOf i ≠ .pending → s.resultOf i = .ofTable? (m.plain i) := by
  induction run with
  | start => exact fun i known => absurd (start_result m i) known
  | @next turns turn before due ih =>
    intro i known
    rw [Turn.after_result (before.inside due)] at known ⊢
    split
    next here =>
      have offered : ∀ u ∈ (m.usedTraits turn.type).map (·.1),
          shown m turn.state u = m.offered m.plain u := by
        intro u used
        have found : turn.state.resultOf u ≠ .pending := fun waits =>
          acyclic u (.tail' (due.around u used waits) ⟨turn.type, due.known, used⟩)
        rw [shown, ih u found, Composition.table_of_table]
        rfl
      rw [here, CodeModel.plain_eq numbered acyclic, due.known, Option.bind_some, Turn.verdict,
        Turn.offers, CodeModel.gathered_congr offered]
      rfl
    next elsewhere =>
      rw [if_neg elsewhere] at known
      exact ih i known

end Composing

end PhpAnalyser
