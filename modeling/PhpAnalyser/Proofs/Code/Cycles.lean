import PhpAnalyser.Proofs.Code.Settled
/-!
Method names along traits that use each other, where no rules choose among them and nothing
collides. A type gets the names behind a trait that it sees, and of a trait that is still in work
only those that the trait declares. Only uses on a cycle are not seen.
-/
namespace PhpAnalyser

open Relation (TransGen ReflTransGen)

def TypeDecl.Unruled (t : TypeDecl) : Prop :=
  ∀ clause ∈ t.uses, clause.precedences = [] ∧ clause.renames = []

instance (t : TypeDecl) : Decidable t.Unruled :=
  inferInstanceAs (Decidable (∀ clause ∈ t.uses, clause.precedences = [] ∧ clause.renames = []))

namespace CodeModel

variable (m : CodeModel)

def Declares (id : Nat) (key : String) : Prop :=
  ∃ t, m.type? id = some t ∧ (m.declared? t key).isSome

/-- A name is declared where the seen traits of a type lead to, or by a trait that is used there. -/
def Provides (order : List Nat) (id : Nat) (key : String) : Prop :=
  ∃ last owner, ReflTransGen (m.Sees order) id last ∧ (owner = last ∨ m.UsesTrait last owner) ∧
    m.Declares owner key

/-- No type in front of this one gets to a cycle that it gets to. -/
def Foremost (id : Nat) : Prop :=
  ∀ earlier < id, ∀ trait, TransGen m.UsesTrait trait trait →
    ReflTransGen m.UsesTrait earlier trait → ¬ReflTransGen m.UsesTrait id trait

variable {m} {t : TypeDecl} {offers : Offers} {table : MethodTable} {key : String}
  {order : List Nat} {id : Nat}

theorem excluded_of_unruled (unruled : t.Unruled) (key : String) : m.excludedTypes t key = [] := by
  have rules : t.uses.flatMap (·.precedences) = [] :=
    List.flatMap_eq_nil_iff.mpr fun clause listed => (unruled clause listed).1
  rw [excludedTypes, rules]
  rfl

/-- Without rules, a table binds what is declared and what is offered. -/
theorem bound_iff_of_unruled (tidy : offers.Tidy) (unruled : t.Unruled)
    (ok : m.tableOf t offers = .ok table) (key : String) :
    (SortedMap.find? table key).isSome ↔ (m.declared? t key).isSome ∨ offers.ofName key ≠ [] := by
  have composes := table_of_ok tidy ok
  cases declared : m.declared? t key with
  | some c => simp [composes.declared key _ (find_own key declared)]
  | none =>
    have unbound := find_declared_eq_none.mpr declared
    have settled : m.choose (m.excludedTypes t key) (offers.ofName key) ≠ .collision := by
      intro collision
      obtain ⟨found, error⟩ := (fails_iff tidy).mpr ⟨key, unbound, collision⟩
      cases ok.symm.trans error
    have wins := winner_is_some settled
    have lent := lent_of_undeclared key tidy declared
    have all : remaining (m.excludedTypes t key) (offers.ofName key) = offers.ofName key := by
      rw [excluded_of_unruled unruled, remaining]
      simp
    rw [all] at wins
    rw [← wins]
    simp only [Option.isSome_none, Bool.false_eq_true, false_or]
    constructor
    · intro bound
      obtain ⟨binding, found⟩ := Option.isSome_iff_exists.mp bound
      rcases composes.only key binding found with own | ⟨-, ⟨old, given, -⟩ | ⟨-, _, aliases, -⟩⟩
      · rw [unbound] at own
        cases own
      · rw [lent] at given
        obtain ⟨offer, won, -⟩ := Option.map_eq_some_iff.mp given
        exact Option.isSome_of_eq_some won
      · obtain ⟨rule, listed, -⟩ := aliases
        obtain ⟨clause, inside, here⟩ := List.mem_flatMap.mp listed
        rw [(unruled clause inside).2] at here
        cases here
    · intro won
      obtain ⟨offer, won⟩ := Option.isSome_iff_exists.mp won
      rw [won] at lent
      obtain ⟨new, found, -⟩ := composes.lent key _ unbound lent
      exact Option.isSome_of_eq_some found

theorem declares_of_type (found : m.type? id = some t) :
    m.Declares id key ↔ (m.declared? t key).isSome :=
  ⟨fun ⟨_, found', declared⟩ => Option.some.inj (found'.symm.trans found) ▸ declared,
    fun declared => ⟨t, found, declared⟩⟩

theorem bound_in_fallback : (SortedMap.find? (Composing.fallback m id) key).isSome ↔
    m.Declares id key := by
  rw [Composing.fallback]
  cases found : m.type? id with
  | none => simp [Declares, found, SortedMap.find?]
  | some t =>
    rw [declares_of_type found, Option.elim_some, find_declared, Option.isSome_map]
    rfl

theorem Provides.of_declares (declares : m.Declares id key) : m.Provides order id key :=
  ⟨id, id, .refl, .inl rfl, declares⟩

/-- What a type is provided with comes from itself or through one of the traits that it uses. -/
theorem provides_iff : m.Provides order id key ↔ m.Declares id key ∨
    ∃ u, m.UsesTrait id u ∧ (m.Declares u key ∨ m.Sees order id u ∧ m.Provides order u key) := by
  constructor
  · rintro ⟨last, owner, path, here, declares⟩
    rcases path.cases_head with rfl | ⟨u, sees, rest⟩
    · rcases here with rfl | uses
      · exact .inl declares
      · exact .inr ⟨owner, uses, .inl declares⟩
    · exact .inr ⟨u, sees.1, .inr ⟨sees, last, owner, rest, here, declares⟩⟩
  · rintro (declares | ⟨u, uses, declares | ⟨sees, last, owner, path, here, declares⟩⟩)
    · exact .of_declares declares
    · exact ⟨id, u, .refl, .inr uses, declares⟩
    · exact ⟨last, owner, .head sees path, here, declares⟩

/-- A type that is in front of all others that get to its cycles sees all that it gets to. -/
theorem Arranged.sees_of_foremost (arranged : m.Arranged order) (inside : id < m.types.size)
    (foremost : m.Foremost id) {i : Nat} (path : ReflTransGen m.UsesTrait id i) :
    ReflTransGen (m.Sees order) id i := by
  induction path with
  | refl => exact .refl
  | @tail d t path uses ih =>
    by_cases shared : ∃ earlier < id, ReflTransGen m.UsesTrait earlier t
    · obtain ⟨earlier, before, other⟩ := shared
      refine ih.tail (by_contra fun unseen => ?_)
      have cycle : TransGen m.UsesTrait t t := .tail' (arranged.around d t uses unseen) uses
      exact foremost earlier before t cycle other (path.tail uses)
    · refine arranged.first id inside t (path.tail uses) fun earlier before other => ?_
      exact shared ⟨earlier, before, other⟩

end CodeModel

namespace Composing.Turns

open CodeModel

variable {m : CodeModel} {s : Composing} {turns before later : List Turn} {turn : Turn}
  {key : String} {u : Nat}

/-- Of a trait that waits only what it declares is shown, and else what its table binds. -/
theorem shown_iff (run : Turns m (before ++ turn :: later) s)
    (binds : ∀ other ∈ before, ∀ table, other.verdict m = .ok table →
      ((SortedMap.find? table key).isSome ↔
        m.Provides (order (before ++ turn :: later)) other.type.id key))
    (whole : ∀ other ∈ before, ∃ table, other.verdict m = .ok table)
    (uses : m.UsesTrait turn.type.id u) :
    (SortedMap.find? (shown m turn.state u) key).isSome ↔
      m.Declares u key ∨ m.Sees (order (before ++ turn :: later)) turn.type.id u ∧
        m.Provides (order (before ++ turn :: later)) u key := by
  have sees := sees_iff run uses
  by_cases waits : turn.state.resultOf u = .pending
  · have unseen : ¬m.Sees (order (before ++ turn :: later)) turn.type.id u := fun no => sees.mp no waits
    rw [shown, waits]
    simp only [unseen, false_and, or_false]
    exact bound_in_fallback
  · obtain ⟨other, inside, rfl⟩ := List.mem_map.mp ((run.split.1.listed u).mp waits)
    obtain ⟨table, verdict⟩ := whole other inside
    have result : turn.state.resultOf other.type.id = .composed table := by
      rw [run.split.1.result inside, verdict]
      rfl
    rw [shown, result]
    change (SortedMap.find? table key).isSome ↔ _
    rw [binds other inside table verdict]
    exact ⟨fun provides => .inr ⟨sees.mpr waits, provides⟩,
      fun either => either.elim .of_declares (·.2)⟩

/-- Without rules, and without types that fail, a table binds what its type is provided with. -/
theorem bound_iff (run : Turns m turns s) (unruled : ∀ turn ∈ turns, turn.type.Unruled)
    (whole : ∀ turn ∈ turns, ∃ table, turn.verdict m = .ok table) (key : String) :
    ∀ turn ∈ turns, ∀ table, turn.verdict m = .ok table →
      ((SortedMap.find? table key).isSome ↔ m.Provides (order turns) turn.type.id key) := by
  -- By the place of the turn: a table that is shown in it is that of an earlier turn.
  suffices placed : ∀ n before turn later, before.length = n → turns = before ++ turn :: later →
      ∀ table, turn.verdict m = .ok table →
        ((SortedMap.find? table key).isSome ↔ m.Provides (order turns) turn.type.id key) by
    intro turn listed
    obtain ⟨before, later, split⟩ := List.append_of_mem listed
    exact placed _ before turn later rfl split
  intro n
  induction n using Nat.strong_induction_on with
  | _ n ih =>
    rintro before turn later rfl rfl table ok
    have inside {other : Turn} (listed : other ∈ before) : other ∈ before ++ turn :: later :=
      List.mem_append_left _ listed
    have binds : ∀ other ∈ before, ∀ table, other.verdict m = .ok table →
        ((SortedMap.find? table key).isSome ↔
          m.Provides (order (before ++ turn :: later)) other.type.id key) := by
      intro other listed
      obtain ⟨front, behind, rfl⟩ := List.append_of_mem listed
      refine ih front.length ?_ front other (behind ++ turn :: later) rfl ?_
      · simp
      · simp
    have member : turn ∈ before ++ turn :: later := List.mem_append_right _ List.mem_cons_self
    have due := run.due member
    have tidy := run.split.1.tidy
    rw [bound_iff_of_unruled (Offers.gathered_tidy _) (unruled turn member) ok, provides_iff,
      declares_of_type due.known]
    refine or_congr_right ⟨fun offered => ?_, ?_⟩
    · obtain ⟨offer, listed⟩ := List.exists_mem_of_ne_nil _ offered
      obtain ⟨used, found⟩ := (Offers.mem_of_name_gathered tidy).mp ⟨offer, listed, rfl⟩
      have uses := (uses_iff due).mpr used
      exact ⟨_, uses, (shown_iff run binds (fun other listed => whole other (inside listed))
        uses).mp (Option.isSome_of_eq_some found)⟩
    · rintro ⟨u, uses, provided⟩
      obtain ⟨binding, found⟩ := Option.isSome_iff_exists.mp ((shown_iff run binds
        (fun other listed => whole other (inside listed)) uses).mpr provided)
      obtain ⟨offer, listed, -⟩ := (Offers.mem_of_name_gathered (p := (u, binding)) tidy).mpr
        ⟨(uses_iff due).mp uses, found⟩
      exact List.ne_nil_of_mem listed

end Composing.Turns

namespace CodeModel

variable {m : CodeModel} (g : Nat → Composition) {order : List Nat} {id : Nat} {key : String}

theorem recomposed_declares : (m.recomposed g).Declares id key ↔ m.Declares id key := by
  rw [Declares, Declares, recomposed_type]
  cases m.type? id with
  | none => simp
  | some t => simp only [Option.map_some, Option.some.injEq, exists_eq_left']; rfl

theorem recomposed_provides :
    (m.recomposed g).Provides order id key ↔ m.Provides order id key := by
  simp only [Provides, recomposed_sees, recomposed_uses, recomposed_declares]

end CodeModel

namespace Assembly

open CodeModel Composing

variable {calls : List Added}

/-- Without reports of collisions, every type gets a table in its turn. -/
theorem whole_of_quiet (quiet : ∀ d ∈ (after calls).finish.diagnostics, d.kind ≠ .methodCollision)
    {turns : List Turn} (run : Turns (registered calls) turns (runOf calls).idle) {turn : Turn}
    (listed : turn ∈ turns) : ∃ table, turn.verdict (registered calls) = .ok table := by
  cases verdict : turn.verdict (registered calls) with
  | ok table => exact ⟨table, rfl⟩
  | error found =>
    exfalso
    have there : turn.type ∈ (registered calls).types := Array.mem_of_getElem? (run.due listed).known
    have failed : (turn.type.recomposed (compositions calls)).composition = .failed := by
      have result := run.result listed
      rw [verdict] at result
      exact result
    obtain ⟨d, reported, method, span, rfl⟩ := ((composed_after calls).failed _
      (Array.mem_map_of_mem there)).mp failed
    exact quiet _ reported rfl

/-- Without rules and without collisions, the table of a type binds the names that it is provided
with in the order in which the composition of the types ends. A use that is not seen in that order
is on a cycle. So a type gets all names that are declared where it gets to if no type in front of it
gets to the same cycles, and the names of a trait if no type in front of it gets to that trait. -/
theorem names_along_seen_traits (calls : List Added)
    (unruled : ∀ t ∈ (finished calls).types, t.Unruled)
    (quiet : ∀ d ∈ (after calls).finish.diagnostics, d.kind ≠ .methodCollision) :
    ∃ order : List Nat, order.Nodup ∧ (∀ id, id ∈ order ↔ id < (finished calls).types.size) ∧
      (∀ d t, (finished calls).UsesTrait d t → ¬(finished calls).Sees order d t →
        ReflTransGen (finished calls).UsesTrait t d) ∧
      ∀ t ∈ (finished calls).types, ∃ table, t.composition = .composed table ∧
        (∀ key, (SortedMap.find? table key).isSome ↔ (finished calls).Provides order t.id key) ∧
        ∀ owner key, ReflTransGen (finished calls).UsesTrait t.id owner →
          (finished calls).Declares owner key →
          ((finished calls).Foremost t.id ∨
            ∀ earlier < t.id, ¬ReflTransGen (finished calls).UsesTrait earlier owner) →
          (SortedMap.find? table key).isSome := by
  have numbered := types_numbered calls
  obtain ⟨turns, swept⟩ := run_all_swept numbered (Nat.lt_succ_self (registered calls).types.size)
  have run : Turns (registered calls) turns (runOf calls).idle := swept.run
  have arranged : (finished calls).Arranged (order turns) :=
    finished_eq calls ▸ swept.arranged.recomposed _
  refine ⟨order turns, arranged.once, arranged.all, arranged.around, fun t member => ?_⟩
  have inside : t.id < (finished calls).types.size := (finished_numbered calls).lt member
  obtain ⟨r, there, rfl⟩ := mem_finished member
  obtain ⟨turn, listed, rfl⟩ := turn_of_type run there
  obtain ⟨table, verdict⟩ := whole_of_quiet quiet run listed
  have composed : (turn.type.recomposed (compositions calls)).composition = .composed table := by
    have result := run.result listed
    rw [verdict] at result
    exact result
  have bound (key : String) : (SortedMap.find? table key).isSome ↔
      (finished calls).Provides (order turns) turn.type.id key := by
    rw [finished_eq, recomposed_provides]
    refine run.bound_iff (fun other inside => ?_) (fun other => whole_of_quiet quiet run) key turn
      listed table verdict
    exact unruled (other.type.recomposed (compositions calls))
      (Array.mem_map_of_mem (Array.mem_of_getElem? (run.due inside).known))
  refine ⟨table, composed, bound, fun owner key path declares either => ?_⟩
  refine (bound key).mpr ⟨owner, owner, ?_, .inl rfl, declares⟩
  rcases either with foremost | least
  · exact arranged.sees_of_foremost inside foremost path
  · exact arranged.first turn.type.id inside owner path least

def lostName : Added := .source "lost.php"
  "<?php trait A { use B; } trait B { use C; function b() {} } trait C { use A; }"

theorem lost_name_model : (∀ t ∈ (finished [lostName]).types.toList, t.Unruled) ∧
    (∀ d ∈ (after [lostName]).finish.diagnostics, d.kind ≠ .methodCollision) ∧
    (∃ t ∈ (finished [lostName]).type? 0, 1 ∈ ((finished [lostName]).usedTraits t).map (·.1)) ∧
    (∃ t ∈ (finished [lostName]).type? 2, t.composition = .composed [] ∧
      0 ∈ ((finished [lostName]).usedTraits t).map (·.1)) ∧
    ∃ t ∈ (finished [lostName]).type? 1, ((finished [lostName]).declared? t "b").isSome := by
  decide +kernel

theorem names_along_seen_traits_entered : ∃ t ∈ (finished [lostName]).type? 0, ∃ table,
    t.composition = .composed table ∧ (SortedMap.find? table "b").isSome := by
  obtain ⟨unruled, quiet, ⟨t, found, used⟩, -, declares⟩ := lost_name_model
  obtain ⟨order, -, -, -, bound⟩ := names_along_seen_traits [lostName]
    (fun t member => unruled t (Array.mem_toList_iff.mpr member)) quiet
  obtain ⟨table, composed, -, complete⟩ := bound t (Array.mem_of_getElem? found)
  have number : t.id = 0 := finished_numbered [lostName] 0 t found
  rw [number] at complete
  have foremost : (finished [lostName]).Foremost 0 :=
    fun _ before => absurd before (Nat.not_lt_zero _)
  exact ⟨t, found, table, composed,
    complete 1 "b" (.single ⟨t, found, used⟩) declares (.inl foremost)⟩

/-- A trait on a cycle does not get a name that is declared where it gets to. -/
theorem name_lost_on_cycle :
    (∀ t ∈ (finished [lostName]).types.toList, t.Unruled) ∧
      (∀ d ∈ (after [lostName]).finish.diagnostics, d.kind ≠ .methodCollision) ∧
      ReflTransGen (finished [lostName]).UsesTrait 2 1 ∧ (finished [lostName]).Declares 1 "b" ∧
      ∃ t ∈ (finished [lostName]).type? 2, t.composition = .composed [] := by
  obtain ⟨unruled, quiet, onward, ⟨t, found, lost, used⟩, declares⟩ := lost_name_model
  exact ⟨unruled, quiet, .tail (.single ⟨t, found, used⟩) onward, declares, t, found, lost⟩

end Assembly

end PhpAnalyser
