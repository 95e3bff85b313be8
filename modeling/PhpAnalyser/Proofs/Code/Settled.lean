import PhpAnalyser.Proofs.Code.Total
import PhpAnalyser.Proofs.Code.Turns
/-!
What each type of the finished model was offered in its turn, what came of it, and what is reported
of it.
-/
namespace PhpAnalyser

open Relation (TransGen ReflTransGen)

namespace CodeModel

variable {m : CodeModel} {t : TypeDecl} {tables : Nat → MethodTable}

/-- The reports of a type that fails name it, and every name that collides. -/
theorem names_of_found {found : List Diagnostic} {d : Diagnostic}
    (error : m.tableOf t (Offers.gathered tables (m.usedTraits t)) = .error found)
    (listed : d ∈ found) : ∃ method, d.Names t method ∧
      m.Collides t (Offers.gathered tables (m.usedTraits t)) (lowercase method) := by
  obtain ⟨named, rfl, -, -, keys⟩ :=
    reports_of_error (Offers.gathered_tidy _) (gathered_placed m t tables) error
  obtain ⟨e, member, names⟩ := Composing.Ledger.names_of_report listed
  exact ⟨e.1, names, (keys _).mp (List.mem_map.mpr ⟨e, member, rfl⟩)⟩

/-- Every name that collides is named. -/
theorem found_of_collides {key : String}
    (collides : m.Collides t (Offers.gathered tables (m.usedTraits t)) key) :
    ∃ found, m.tableOf t (Offers.gathered tables (m.usedTraits t)) = .error found ∧
      ∃ d ∈ found, ∃ method, d.Names t method ∧ lowercase method = key := by
  obtain ⟨found, error⟩ := (fails_iff (Offers.gathered_tidy _)).mpr ⟨key, collides⟩
  obtain ⟨named, rfl, -, -, keys⟩ :=
    reports_of_error (Offers.gathered_tidy _) (gathered_placed m t tables) error
  obtain ⟨e, member, same⟩ := List.mem_map.mp ((keys key).mpr collides)
  exact ⟨_, error, _, List.mem_map.mpr ⟨e, member, rfl⟩, e.1, ⟨e.2, rfl⟩, same⟩

section Recomposed

variable (g : Nat → Composition)

theorem recomposed_sees (order : List Nat) : (m.recomposed g).Sees order = m.Sees order := by
  funext d t
  rw [Sees, Sees, recomposed_uses]

theorem Arranged.recomposed {order : List Nat} (arranged : m.Arranged order) :
    (m.recomposed g).Arranged order := by
  have size : (m.recomposed g).types.size = m.types.size := Array.size_map ..
  constructor
  · exact arranged.once
  · rw [size]
    exact arranged.all
  · rw [recomposed_uses, recomposed_sees]
    exact arranged.around
  · rw [recomposed_uses, recomposed_sees, size]
    exact arranged.first

end Recomposed

/-- What a trait offers to a type that uses it, in an order of the types: its table if it comes in
front of the type, and else, as it is in work itself, the methods that it declares. -/
def offeredIn (f : CodeModel) (order : List Nat) (t u : Nat) : MethodTable :=
  if u ∈ order.takeWhile (· ≠ t) then f.offeredTable u else Composing.fallback f u

/-- A trait that does not get back to its user offers its table. -/
theorem Arranged.offered_in {order : List Nat} (arranged : m.Arranged order) {d u : Nat}
    (uses : m.UsesTrait d u) (apart : ¬ReflTransGen m.UsesTrait u d) :
    m.offeredIn order d u = m.offeredTable u := by
  obtain ⟨-, before, later, split, listed⟩ := arranged.sees uses apart
  have once : order.Nodup := arranged.once
  rw [split] at once
  have front : u ∈ order.takeWhile (· ≠ d) := by
    rwa [split, takeWhile_front once]
  rw [offeredIn, if_pos front]

end CodeModel

namespace Assembly

open CodeModel Composing

variable {calls : List Added}

structure Offered (f : CodeModel) (tables : Nat → MethodTable) : Prop where
  shown : ∀ id, tables id = f.offeredTable id ∨ tables id = Composing.fallback f id
  tidy : ∀ id, (tables id).Tidy

/-- What a type of the finished model was offered, what came of it, and what is reported of it. -/
structure Settled (calls : List Added) (t : TypeDecl) (tables : Nat → MethodTable) : Prop where
  offered : Offered (finished calls) tables
  result : t.composition = .ofTable? ((finished calls).tableOf t
    (Offers.gathered tables ((finished calls).usedTraits t))).toOption
  told : ∀ d, (∃ method, d.Names t method) → (d ∈ (after calls).finish.diagnostics ↔
    ∃ found, (finished calls).tableOf t
      (Offers.gathered tables ((finished calls).usedTraits t)) = .error found ∧ d ∈ found)

/-! #### Declared methods among what is offered -/

theorem offered_table_declared {u : TypeDecl} (member : u ∈ (finished calls).types) {key : String}
    {c : Callable} (declared : (finished calls).declared? u key = some c) :
    SortedMap.find? ((finished calls).offeredTable u.id) key = some (ownBinding c) := by
  have found : (finished calls).type? u.id = some u := (finished_numbered calls).get member
  rw [offeredTable, CodeModel.offered, fallback, found, Option.bind_some, TypeDecl.methodTable]
  cases composed : u.composition with
  | composed table =>
    exact ((composed_after calls).grounded u member table composed).declared key c declared
  | pending => exact find_own key declared
  | failed => exact find_own key declared

/-- Whenever a trait was asked, it offered the methods that it declares. -/
theorem Offered.declared {tables : Nat → MethodTable} (offered : Offered (finished calls) tables)
    {u : TypeDecl} (member : u ∈ (finished calls).types) {key : String} {c : Callable}
    (declared : (finished calls).declared? u key = some c) :
    SortedMap.find? (tables u.id) key = some (ownBinding c) := by
  rcases offered.shown u.id with table | own
  · rw [table]
    exact offered_table_declared member declared
  · have found : (finished calls).type? u.id = some u := (finished_numbered calls).get member
    rw [own, fallback, found]
    exact find_own key declared

/-- What is not offered in the end was never offered. -/
theorem Offered.unbound {tables : Nat → MethodTable} (offered : Offered (finished calls) tables)
    {id : Nat} {key : String}
    (unbound : SortedMap.find? ((finished calls).offeredTable id) key = none) :
    SortedMap.find? (tables id) key = none := by
  rcases offered.shown id with table | own
  · rw [table, unbound]
  rw [own, fallback]
  cases found : (finished calls).type? id with
  | none => rfl
  | some u =>
    have number := finished_numbered calls id u found
    subst number
    refine find_declared_eq_none.mpr (Option.eq_none_iff_forall_ne_some.mpr fun c declared => ?_)
    rw [offered_table_declared (Array.mem_of_getElem? found) declared] at unbound
    cases unbound

/-! #### Turns -/

/-- Each registered type had a turn in the composition of the model. -/
theorem turn_of_type {turns : List Turn} (run : Turns (registered calls) turns (runOf calls).idle)
    {r : TypeDecl} (there : r ∈ (registered calls).types) : ∃ turn ∈ turns, turn.type = r := by
  have numbered := types_numbered calls
  have settled := run_all_settled numbered (Nat.lt_succ_self _) there
  obtain ⟨turn, listed, same⟩ := List.mem_map.mp ((run.listed r.id).mp settled)
  refine ⟨turn, listed, ?_⟩
  have known := (run.due listed).known
  rw [same] at known
  exact Option.some.inj (known.symm.trans (numbered.get there))

/-- What is shown of a type in a turn is its table in the end if it had its own turn before, and else
what it declares. -/
theorem shown_in_turn {before later : List Turn} {turn : Turn}
    (run : Turns (registered calls) (before ++ turn :: later) (runOf calls).idle) :
    shown (registered calls) turn.state =
      (finished calls).offeredIn (order (before ++ turn :: later)) turn.type.id := by
  funext id
  have fallback_eq : fallback (finished calls) id = fallback (registered calls) id := by
    rw [finished_eq, recomposed_fallback]
  have place : id ∈ order before ↔ turn.state.resultOf id ≠ .pending :=
    (run.split.1.listed id).symm
  rw [offeredIn, run.earlier, shown, fallback_eq]
  by_cases known : turn.state.resultOf id = .pending
  · have waits : id ∉ order before := fun listed => place.mp listed known
    rw [if_neg waits, known]
    rfl
  · obtain ⟨other, inside, rfl⟩ := List.mem_map.mp (place.mpr known)
    have listed : other ∈ before ++ turn :: later := List.mem_append_left _ inside
    have last : compositions calls other.type.id = turn.state.resultOf other.type.id :=
      run.kept (List.mem_append_right _ List.mem_cons_self) known
    rw [if_pos (place.mpr known), offeredTable, offered, fallback_eq, finished_eq, recomposed_type,
      (run.due listed).known, Option.map_some, Option.bind_some, TypeDecl.methodTable,
      TypeDecl.recomposed, last]

theorem offered_in_order (order : List Nat) (t id : Nat) :
    (finished calls).offeredIn order t id = (finished calls).offeredTable id ∨
      (finished calls).offeredIn order t id = fallback (finished calls) id := by
  rw [offeredIn]
  split
  · exact .inl rfl
  · exact .inr rfl

/-- A report that names a registered type was found in the turn of the type. -/
theorem told_in_turn {turns : List Turn} (run : Turns (registered calls) turns (runOf calls).idle)
    {turn : Turn} (listed : turn ∈ turns) {d : Diagnostic} {method : String}
    (names : d.Names turn.type method) :
    d ∈ (after calls).finish.diagnostics ↔ d ∈ turn.found (registered calls) := by
  have kept := kept_after calls
  have registered_type {turn : Turn} (listed : turn ∈ turns) : turn.type ∈ (registered calls).types :=
    Array.mem_of_getElem? (run.due listed).known
  have collisions : (runOf calls).collisions = turns.flatMap (·.found (registered calls)) := run.told
  rw [diagnostics_eq, List.mem_append, collisions, List.mem_flatMap]
  constructor
  · rintro (before | ⟨other, inside, found⟩)
    · exact absurd names (kept.no_collision before turn.type method)
    · have error : ∃ reported, other.verdict (registered calls) = .error reported ∧ d ∈ reported := by
        rw [Turn.found] at found
        cases verdict : other.verdict (registered calls) with
        | ok table => simp [verdict] at found
        | error reported => exact ⟨reported, rfl, by simpa [verdict] using found⟩
      obtain ⟨reported, error, member⟩ := error
      obtain ⟨method', names', -⟩ := names_of_found error member
      have same := (kept.names_one (registered_type listed) (registered_type inside) names names').1
      have one : turn = other := List.inj_on_of_nodup_map run.once listed inside (congrArg (·.id) same)
      rwa [one]
  · exact fun found => .inr ⟨turn, listed, found⟩

/-- The types of the finished model are settled in one order, each by what it is offered in it. -/
theorem settled_after (calls : List Added) : ∃ order, (finished calls).Arranged order ∧
    ∀ t ∈ (finished calls).types, Settled calls t ((finished calls).offeredIn order t.id) := by
  have numbered := types_numbered calls
  obtain ⟨turns, swept⟩ := run_all_swept numbered (Nat.lt_succ_self (registered calls).types.size)
  have run := swept.run
  refine ⟨order turns, finished_eq calls ▸ swept.arranged.recomposed _, fun t member => ?_⟩
  obtain ⟨r, there, rfl⟩ := mem_finished member
  obtain ⟨turn, listed, rfl⟩ := turn_of_type run there
  obtain ⟨before, later, split⟩ := List.append_of_mem listed
  have shown_eq : shown (registered calls) turn.state = (finished calls).offeredIn (order turns)
      (turn.type.recomposed (compositions calls)).id := by
    rw [split] at run ⊢
    exact shown_in_turn run
  have verdict : (finished calls).tableOf (turn.type.recomposed (compositions calls))
      (Offers.gathered ((finished calls).offeredIn (order turns)
          (turn.type.recomposed (compositions calls)).id)
        ((finished calls).usedTraits (turn.type.recomposed (compositions calls)))) =
      turn.verdict (registered calls) := by
    rw [← shown_eq, finished_eq, recomposed_used_traits, recomposed_table_of]
    rfl
  constructor
  case offered =>
    refine ⟨offered_in_order _ _, fun id => ?_⟩
    rw [← shown_eq]
    exact (split ▸ run).split.1.tidy id
  case result =>
    rw [verdict]
    exact run.result listed
  case told =>
    rintro d ⟨method, names⟩
    rw [verdict, told_in_turn run listed names, Turn.found]
    cases turn.verdict (registered calls) with
    | ok table => simp
    | error found => simp

namespace Settled

variable {t : TypeDecl} {tables : Nat → MethodTable}

/-- The names that are reported of a type are those that collide. -/
theorem reported_iff (settled : Settled calls t tables) (member : t ∈ (finished calls).types)
    (key : String) :
    (∃ d ∈ (after calls).finish.diagnostics, ∃ method, d.Names t method ∧ lowercase method = key) ↔
      (finished calls).Collides t
        (Offers.gathered tables ((finished calls).usedTraits t)) key := by
  constructor
  · rintro ⟨d, listed, method, names, rfl⟩
    obtain ⟨found, error, inside⟩ := (settled.told d ⟨method, names⟩).mp listed
    obtain ⟨method', names', collides⟩ := names_of_found error inside
    obtain ⟨r, there, rfl⟩ := mem_finished member
    rwa [((kept_after calls).names_one there there names names').2]
  · intro collides
    obtain ⟨found, error, d, listed, method, names, same⟩ := found_of_collides collides
    exact ⟨d, (settled.told d ⟨method, names⟩).mpr ⟨found, error, listed⟩, method, names, same⟩

theorem table_of_composed (settled : Settled calls t tables) {table : MethodTable}
    (composed : t.composition = .composed table) : (finished calls).tableOf t
      (Offers.gathered tables ((finished calls).usedTraits t)) = .ok table := by
  have result := settled.result
  rw [composed] at result
  cases verdict : (finished calls).tableOf t
      (Offers.gathered tables ((finished calls).usedTraits t)) with
  | ok made =>
    rw [verdict] at result
    cases result
    rfl
  | error found =>
    rw [verdict] at result
    cases result

end Settled

/-- Every table in the finished model was made from what the used traits offered. -/
theorem finished_explained {t : TypeDecl} (member : t ∈ (finished calls).types)
    {table : MethodTable} (composed : t.composition = .composed table) :
    ∃ tables, Offered (finished calls) tables ∧
      (finished calls).tableOf t (Offers.gathered tables ((finished calls).usedTraits t)) =
        .ok table := by
  obtain ⟨order, -, settled⟩ := settled_after calls
  exact ⟨_, (settled t member).offered, (settled t member).table_of_composed composed⟩

end Assembly

end PhpAnalyser
