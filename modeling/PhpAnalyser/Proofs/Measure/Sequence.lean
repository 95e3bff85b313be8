import Mathlib.Data.Fintype.EquivFin
import Mathlib.Logic.Relation
import Mathlib.Order.WellFounded
import PhpAnalyser.Proofs.Measure.Complete
/-!
The sequence in which an engine runs its analyzers. There is one unless a dependency is missing or
the dependencies form a cycle. Each analyzer in it is the earliest registered one whose turn can
come, and is handed what it depends on.
-/
namespace PhpAnalyser

open Relation (TransGen)

def DependsOn (registered : List Analyzer) (id dependency : String) : Prop :=
  ∃ a ∈ registered, a.id = id ∧ dependency ∈ a.dependencies

def Circular (registered : List Analyzer) : Prop :=
  ∃ id, TransGen (DependsOn registered) id id

/-- An analyzer depends on one that is not there. -/
def Incomplete (registered : List Analyzer) : Prop :=
  ∃ a ∈ registered, ∃ dependency ∈ a.dependencies, dependency ∉ registered.map (·.id)

def Analyzer.Ready (placed : List Analyzer) (a : Analyzer) : Prop :=
  ∀ dependency ∈ a.dependencies, dependency ∈ placed.map (·.id)

/-- The earliest registered analyzer that is neither placed nor has to wait. -/
structure Analyzer.Next (registered placed : List Analyzer) (a : Analyzer) : Prop where
  ready : a.Ready placed
  unplaced : a.id ∉ placed.map (·.id)
  earliest : ∃ earlier later, registered = earlier ++ a :: later ∧
    ∀ b ∈ earlier, b.id ∈ placed.map (·.id) ∨ ¬b.Ready placed

section Cycles

variable {registered : List Analyzer}

/-- In a sequence where each analyzer stands behind those it depends on there is no cycle. -/
theorem not_circular_of_ready (apart : (registered.map (·.id)).Nodup)
    (sorted : Engine.EachBehind Analyzer.Ready registered) : ¬Circular registered := by
  have backwards {id dependency : String} (depends : DependsOn registered id dependency) :
      (registered.map (·.id)).idxOf dependency < (registered.map (·.id)).idxOf id := by
    obtain ⟨a, member, rfl, asked⟩ := depends
    obtain ⟨before, behind, rfl⟩ := List.append_of_mem member
    have placed := sorted before a behind rfl dependency asked
    rw [List.map_append, List.map_cons] at apart ⊢
    have new : a.id ∉ before.map (·.id) := fun old =>
      (List.nodup_append.mp apart).2.2 _ old _ List.mem_cons_self rfl
    rw [List.idxOf_append_of_mem placed, List.idxOf_append_of_notMem new, List.idxOf_cons_self]
    exact Nat.lt_add_right _ (List.idxOf_lt_length_of_mem placed)
  rintro ⟨id, around⟩
  have less {id dependency : String} (path : TransGen (DependsOn registered) id dependency) :
      (registered.map (·.id)).idxOf dependency < (registered.map (·.id)).idxOf id := by
    induction path with
    | single depends => exact backwards depends
    | tail _ depends ih => exact (backwards depends).trans ih
  exact Nat.lt_irrefl _ (less around)

theorem circular_of_perm {registered' : List Analyzer} (perm : registered.Perm registered')
    (circular : Circular registered) : Circular registered' := by
  obtain ⟨id, around⟩ := circular
  refine ⟨id, TransGen.mono ?_ id id around⟩
  rintro id dependency ⟨a, member, rest⟩
  exact ⟨a, perm.mem_iff.mp member, rest⟩

/-- Where every analyzer of a group waits for one of the group, one of the group is on a cycle. -/
theorem cycle_of_waiting {waiting : List String} (some : waiting ≠ [])
    (each : ∀ id ∈ waiting, ∃ dependency ∈ waiting, DependsOn registered id dependency) :
    ∃ id ∈ waiting, TransGen (DependsOn registered) id id := by
  by_contra straight
  let later (a b : {id // id ∈ waiting}) : Prop := TransGen (DependsOn registered) b.1 a.1
  have : IsTrans _ later := ⟨fun _ _ _ first second => second.trans first⟩
  have : Std.Irrefl later := ⟨fun a around => straight ⟨a.1, a.2, around⟩⟩
  have grounded : WellFounded later := Finite.wellFounded_of_trans_of_irrefl later
  obtain ⟨first, listed⟩ := List.exists_mem_of_ne_nil _ some
  obtain ⟨⟨last, there⟩, -, least⟩ := grounded.has_min Set.univ ⟨⟨first, listed⟩, trivial⟩
  obtain ⟨dependency, again, depends⟩ := each last there
  exact least ⟨dependency, again⟩ trivial (.single depends)

end Cycles

namespace Engine

theorem is_ready_iff {placed : List Instrument} {i : Instrument} :
    isReady placed i = true ↔ i.analyzer.Ready (placed.map (·.analyzer)) := by
  rw [isReady, List.all_eq_true]
  refine forall₂_congr fun dependency _ => ?_
  rw [List.any_eq_true, List.map_map, List.mem_map]
  exact exists_congr fun _ => and_congr_right fun _ => decide_eq_true_iff

theorem ids_of_analyzers (l : List Instrument) :
    (l.map (·.analyzer)).map (·.id) = l.map (·.id) := by
  rw [List.map_map]
  rfl

/-- What holds while the instruments `all` are placed one by one. -/
structure Placing (all placed pending : List Instrument) : Prop where
  waiting : pending.Sublist all
  perm : (placed ++ pending).Perm all
  turns : EachBehind (Analyzer.Next (all.map (·.analyzer))) (placed.map (·.analyzer))

/-- An element that stands in a part of a list without repeats stands in the list behind elements
that are in the part before it, or not in the part. -/
theorem split_of_sublist {l before behind : List α} {a : α} (apart : l.Nodup)
    (part : (before ++ a :: behind).Sublist l) :
    ∃ earlier later, l = earlier ++ a :: later ∧
      ∀ b ∈ earlier, b ∈ before ++ a :: behind → b ∈ before := by
  obtain ⟨first, rest, rfl, -, second⟩ := List.append_sublist_iff.mp part
  obtain ⟨skipped, later, rfl, here, there⟩ := List.cons_sublist_iff.mp second
  obtain ⟨middle, front, rfl⟩ := List.append_of_mem here
  refine ⟨first ++ middle, front ++ later, by simp, fun b early listed => ?_⟩
  rcases List.mem_append.mp listed with inside | rest
  · exact inside
  · have again : b ∈ a :: (front ++ later) := by
      rcases List.mem_cons.mp rest with rfl | behind
      · exact List.mem_cons_self
      · exact List.mem_cons_of_mem _ (List.mem_append_right _ (there.subset behind))
    have twice : (first ++ middle ++ a :: (front ++ later)).Nodup := by simpa using apart
    exact absurd rfl ((List.nodup_append.mp twice).2.2 b early b again)

variable {all : List Instrument} (apart : (all.map (·.id)).Nodup)
include apart

theorem Placing.round {placed before behind : List Instrument} {x : Instrument}
    (placing : Placing all placed (before ++ x :: behind)) (ready : isReady placed x = true)
    (blocked : ∀ i ∈ before, isReady placed i = false) :
    Placing all (placed ++ [x]) (before ++ behind) where
  waiting := .trans (.append (.refl before) (List.sublist_cons_self x behind)) placing.waiting
  perm := by
    refine .trans ?_ placing.perm
    rw [List.append_assoc, List.singleton_append]
    exact List.perm_middle.symm.append_left placed
  turns := by
    rw [List.map_append, List.map_singleton, each_behind_snoc]
    refine ⟨placing.turns, is_ready_iff.mp ready, ?_, ?_⟩
    · rw [ids_of_analyzers]
      have once := (placing.perm.map (·.id)).nodup_iff.mpr apart
      rw [List.map_append] at once
      intro old
      exact (List.nodup_append.mp once).2.2 _ old _ (List.mem_map_of_mem (by simp)) rfl
    · obtain ⟨earlier, later, split, early⟩ := split_of_sublist apart.of_map placing.waiting
      refine ⟨earlier.map (·.analyzer), later.map (·.analyzer), by simp [split], ?_⟩
      intro b listed
      obtain ⟨i, member, rfl⟩ := List.mem_map.mp listed
      have known := placing.perm.mem_iff.mpr (split ▸ List.mem_append_left _ member)
      rcases List.mem_append.mp known with old | waits
      · left
        rw [ids_of_analyzers]
        exact List.mem_map_of_mem old
      · right
        rw [← is_ready_iff, blocked i (early i member waits)]
        exact Bool.false_ne_true

theorem place_placing (fuel : Nat) :
    Placing all (place fuel [] all).1 (place fuel [] all).2 :=
  place_keeps (I := Placing all) (fun _ _ _ _ placing ready blocked =>
    placing.round apart ready blocked) fuel ⟨.refl all, .refl all, each_behind_nil⟩

omit apart

theorem Placing.ready {placed pending : List Instrument} (placing : Placing all placed pending) :
    EachBehind Analyzer.Ready (placed.map (·.analyzer)) :=
  fun before a behind split => (placing.turns before a behind split).ready

/-- Each of those that are left over waits for another one of them. -/
theorem Placing.waits {placed pending : List Instrument} (placing : Placing all placed pending)
    (complete : missing? all = none) (stuck : ∀ i ∈ pending, isReady placed i = false) :
    ∀ id ∈ pending.map (·.id), ∃ dependency ∈ pending.map (·.id),
      DependsOn (all.map (·.analyzer)) id dependency := by
  intro id listed
  obtain ⟨i, member, rfl⟩ := List.mem_map.mp listed
  have known : i ∈ all := placing.waiting.subset member
  have blocked : ¬i.analyzer.Ready (placed.map (·.analyzer)) := by
    rw [← is_ready_iff, stuck i member]
    exact Bool.false_ne_true
  simp only [Analyzer.Ready, ids_of_analyzers, not_forall] at blocked
  obtain ⟨dependency, wanted, unplaced⟩ := blocked
  have there := missing_eq_none.mp complete i known dependency wanted
  rw [← (placing.perm.map (·.id)).mem_iff, List.map_append, List.mem_append] at there
  exact ⟨dependency, there.resolve_left unplaced, i.analyzer, List.mem_map_of_mem known, rfl, wanted⟩

variable {m : CodeModel} {f : Filter} {l : List Instrument}

def asked (before : List Instrument) (a : Analyzer) : List Instrument :=
  before.filter fun i => a.dependencies.contains i.id

structure Handed (m : CodeModel) (f : Filter) (before : List Instrument) (i : Instrument)
    (row : Measurement) : Prop where
  finished : ∀ j ∈ before, j.findings.isSome
  filter : i.filter = if i.analyzer.capabilities.filtered then f else .all
  findings : i.findings =
    some (i.analyzer.measure m i.filter (Instrument.results (asked before i.analyzer)))
  analyzer : row.analyzer = i.id
  given : row.given = (asked before i.analyzer).map (·.id)
  events : row.events = i.findings.elim [] (·.events)

def measurements (m : CodeModel) (f : Filter) (l : List Instrument) : List Measurement :=
  (l.foldl (step m f) ([], [])).2

theorem asked_ids {before : List Instrument} {a : Analyzer}
    (ready : a.Ready (before.map (·.analyzer))) (id : String) :
    id ∈ (asked before a).map (·.id) ↔ id ∈ a.dependencies := by
  constructor
  · intro listed
    obtain ⟨i, kept, rfl⟩ := List.mem_map.mp listed
    simpa using (List.mem_filter.mp kept).2
  · intro wanted
    have placed := ready id wanted
    rw [ids_of_analyzers] at placed
    obtain ⟨i, member, rfl⟩ := List.mem_map.mp placed
    exact List.mem_map_of_mem (List.mem_filter.mpr ⟨member, by simpa using wanted⟩)

theorem measurements_snoc (l : List Instrument) {i : Instrument} (fresh : i.findings = none) :
    measurements m f (l ++ [i]) = measurements m f l ++
      [⟨i.id, (asked (outcome m f l) i.analyzer).map (·.id),
        (i.analyzer.measure m (i.withFilter f).filter (given (outcome m f l) i)).events⟩] := by
  have kept : i.withFilter f = ⟨i.analyzer, (i.withFilter f).filter, none⟩ := by
    rw [← fresh]
    unfold Instrument.withFilter
    split <;> rfl
  rw [measurements, List.foldl_append, List.foldl_cons, List.foldl_nil, step, kept, fresh]
  rfl

/-- Every instrument of a run is handed what it asks for, when the ones before it have measured. -/
theorem handed_all (fresh : ∀ i ∈ l, i.findings = none ∧ i.filter = .all) :
    (measurements m f l).map (·.analyzer) = l.map (·.id) ∧
      (∀ i ∈ outcome m f l, i.findings.isSome) ∧
      EachBehind (fun before i => ∃ row, (measurements m f l)[before.length]? = some row ∧
        Handed m f before i row) (outcome m f l) := by
  induction l using List.reverseRecOn with
  | nil => exact ⟨rfl, nofun, each_behind_nil⟩
  | append_singleton l i ih =>
    have fresh' : ∀ j ∈ l, j.findings = none ∧ j.filter = .all :=
      fun j member => fresh j (List.mem_append_left _ member)
    obtain ⟨none, all⟩ := fresh i (List.mem_append_right _ List.mem_cons_self)
    obtain ⟨names, done, handed⟩ := ih fresh'
    have length : (outcome m f l).length = (measurements m f l).length := by
      have analyzers := congrArg List.length
        (outcome_analyzers (m := m) (f := f) fun j member => (fresh' j member).1)
      have rows := congrArg List.length names
      simp only [List.length_map] at analyzers rows
      rw [analyzers, rows]
    rw [outcome_snoc l none, measurements_snoc l none]
    refine ⟨by simp [names], fun j member => ?_, each_behind_snoc.mpr ⟨?_, ?_⟩⟩
    · rcases List.mem_append.mp member with old | new
      · exact done j old
      · rw [List.mem_singleton.mp new]
        rfl
    · intro before j behind split
      obtain ⟨row, found, holds⟩ := handed before j behind split
      exact ⟨row, by rw [List.getElem?_append_left (List.getElem?_eq_some_iff.mp found).1, found],
        holds⟩
    · refine ⟨_, by rw [length, List.getElem?_concat_length], done, ?_, rfl, rfl, rfl, rfl⟩
      dsimp only
      rw [Instrument.withFilter, apply_ite Instrument.filter, all]

end Engine

/-- What a run of some analyzers leads to: each has measured once, in its turn, and was handed
exactly the analyzers it depends on, which had measured before. -/
structure Engine.Sequenced (m : CodeModel) (f : Filter) (registered : List Analyzer) (r : Run) :
    Prop where
  perm : (r.instruments.map (·.analyzer)).Perm registered
  turns : EachBehind (Analyzer.Next registered) (r.instruments.map (·.analyzer))
  once : r.measured.map (·.analyzer) = r.instruments.map (·.id)
  handed : EachBehind (fun before i => ∃ row, r.measured[before.length]? = some row ∧
    Handed m f before i row) r.instruments
  dependencies : EachBehind (fun before i => ((asked before i.analyzer).map (·.id)).Nodup ∧
    ∀ id, id ∈ (asked before i.analyzer).map (·.id) ↔ id ∈ i.analyzer.dependencies) r.instruments

namespace Engine

theorem missing_some {instruments : List Instrument} {fault : ConfigError}
    (found : missing? instruments = some fault) : ∃ a d, fault = .missingDependency a d := by
  obtain ⟨⟨a, d⟩, -, asked⟩ := List.exists_of_findSome?_eq_some found
  dsimp only at asked
  split at asked
  · cases asked
  · exact ⟨a, d, (Option.some.inj asked).symm⟩

variable {registered : List Analyzer} {f : Filter}

theorem analyzers_of_new (registered : List Analyzer) :
    (registered.map Instrument.ofAnalyzer).map (·.analyzer) = registered := by
  rw [List.map_map]
  exact List.map_id _

theorem ids_of_new (registered : List Analyzer) :
    (registered.map Instrument.ofAnalyzer).map (·.id) = registered.map (·.id) := by
  rw [List.map_map]
  rfl

theorem complete_iff :
    missing? (registered.map Instrument.ofAnalyzer) = none ↔ ¬Incomplete registered := by
  rw [missing_eq_none, ids_of_new]
  simp [Incomplete, Instrument.ofAnalyzer]

/-- What is left over waits for each other. -/
theorem Placing.circular {placed pending : List Instrument}
    (placing : Placing (registered.map .ofAnalyzer) placed pending)
    (complete : ¬Incomplete registered) (some : pending ≠ [])
    (stuck : ∀ i ∈ pending, isReady placed i = false) : Circular registered := by
  have waits : pending.map (·.id) ≠ [] := by simpa using some
  have each := placing.waits (complete_iff.mpr complete) stuck
  rw [analyzers_of_new] at each
  obtain ⟨id, -, around⟩ := cycle_of_waiting waits each
  exact ⟨id, around⟩

/-- Where nothing is left over there is no cycle. -/
theorem Placing.straight {placed : List Instrument}
    (placing : Placing (registered.map .ofAnalyzer) placed [])
    (apart : (registered.map (·.id)).Nodup) : ¬Circular registered := by
  have perm : (placed.map (·.analyzer)).Perm registered := by
    simpa only [analyzers_of_new, List.append_nil] using placing.perm.map (·.analyzer)
  have straight := not_circular_of_ready ((perm.map (·.id)).nodup_iff.mpr apart) placing.ready
  exact fun circular => straight (circular_of_perm perm.symm circular)

/-- The run of all instruments, each of which stands where its turn comes. -/
theorem Placing.sequenced {placed : List Instrument}
    (placing : Placing (registered.map .ofAnalyzer) placed [])
    (apart : (registered.map (·.id)).Nodup) (m : CodeModel) (f : Filter) :
    Sequenced m f registered ⟨outcome m f placed, measurements m f placed⟩ := by
  have perm : placed.Perm (registered.map .ofAnalyzer) := by simpa using placing.perm
  have fresh : ∀ i ∈ placed, i.findings = none ∧ i.filter = .all := by
    intro i member
    obtain ⟨a, -, rfl⟩ := List.mem_map.mp (perm.mem_iff.mp member)
    exact ⟨rfl, rfl⟩
  have same := outcome_analyzers (m := m) (f := f) fun i member => (fresh i member).1
  have all : (placed.map (·.analyzer)).Perm registered := by
    simpa only [analyzers_of_new] using perm.map (·.analyzer)
  have turns : EachBehind (Analyzer.Next registered) (placed.map (·.analyzer)) := by
    simpa only [analyzers_of_new] using placing.turns
  have once : ((outcome m f placed).map (·.id)).Nodup := by
    rw [← ids_of_analyzers, same]
    exact (all.map (·.id)).nodup_iff.mpr apart
  obtain ⟨names, -, handed⟩ := handed_all (m := m) (f := f) fresh
  constructor
  case perm => exact same ▸ all
  case turns => exact same ▸ turns
  case once => rw [names, ← ids_of_analyzers, ← same, ids_of_analyzers]
  case handed => exact handed
  case dependencies =>
    rintro before i behind (split : outcome m f placed = _)
    rw [split, List.map_append] at once
    have ready : i.analyzer.Ready (before.map (·.analyzer)) := by
      refine (turns _ _ (behind.map (·.analyzer)) ?_).ready
      rw [← same, split, List.map_append, List.map_cons]
    exact ⟨(List.nodup_append.mp once).1.sublist (List.filter_sublist.map _), asked_ids ready⟩

end Engine

namespace Analysis

/-- The analyzers of an engine have ids of their own. -/
theorem engine_apart {analyzers : List Analyzer} {f : Filter} {e : Engine}
    (registered : engine analyzers f = .ok e) : (analyzers.map (·.id)).Nodup := by
  have apart := (Engine.reached_of_registered registered).apart
  rwa [engine_ok registered, Engine.ids, fresh, Engine.ids_of_new] at apart

end Analysis

namespace Engine

/-- A run fails if a dependency is missing, and if none is, where the dependencies form a cycle;
then the analyzers are as they were registered, perhaps in another order. Otherwise each analyzer
measures once, in its turn, with the analyzers that it depends on. -/
theorem run_in_sequence {analyzers : List Analyzer} {f : Filter} {e : Engine}
    (registered : Analysis.engine analyzers f = .ok e) (m : CodeModel) :
    ((∃ a d, (e.run m).2 = .error (.missingDependency a d)) ↔ Incomplete analyzers) ∧
    (¬Incomplete analyzers →
      ((∃ ids, (e.run m).2 = .error (.dependencyCycle ids)) ↔ Circular analyzers)) ∧
    (Incomplete analyzers ∨ Circular analyzers →
      (e.run m).1.instruments.Perm (analyzers.map .ofAnalyzer)) ∧
    (¬Incomplete analyzers → ¬Circular analyzers →
      ∃ r, (e.run m).2 = .ok r ∧ (e.run m).1.instruments = r.instruments ∧
        Sequenced m f analyzers r) := by
  have apart := Analysis.engine_apart registered
  obtain rfl := Analysis.engine_ok registered
  have placing := place_placing ((ids_of_new analyzers).symm ▸ apart)
    (analyzers.map Instrument.ofAnalyzer).length
  have stuck := place_stuck [] (Nat.le_refl (analyzers.map Instrument.ofAnalyzer).length)
  rcases order_cases (e := Analysis.fresh analyzers f) rfl with
    ⟨fault, missing, eq⟩ | ⟨none, placed, pending, split, outcomes⟩
  · obtain ⟨a, d, rfl⟩ := missing_some missing
    have incomplete : Incomplete analyzers := by
      by_contra complete
      cases missing.symm.trans (complete_iff.mpr complete)
    rw [run, eq]
    exact ⟨⟨fun _ => incomplete, fun _ => ⟨a, d, rfl⟩⟩, fun complete => absurd incomplete complete,
      fun _ => .refl _, fun complete => absurd incomplete complete⟩
  · have complete : ¬Incomplete analyzers := complete_iff.mp none
    rw [show place (analyzers.map Instrument.ofAnalyzer).length [] (analyzers.map .ofAnalyzer) =
      (placed, pending) from split] at placing stuck
    rcases outcomes with ⟨rfl, eq⟩ | ⟨some, eq⟩
    · have straight := placing.straight apart
      rw [run, eq]
      refine ⟨⟨?_, fun incomplete => absurd incomplete complete⟩,
        fun _ => ⟨?_, fun circular => absurd circular straight⟩,
        fun fails => absurd fails (not_or.mpr ⟨complete, straight⟩), fun _ _ => ?_⟩
      · rintro ⟨_, _, failed⟩
        cases failed
      · rintro ⟨_, failed⟩
        cases failed
      · exact ⟨_, rfl, rfl, placing.sequenced apart m f⟩
    · have circular := placing.circular complete some stuck
      rw [run, eq]
      refine ⟨⟨?_, fun incomplete => absurd incomplete complete⟩,
        fun _ => ⟨fun _ => circular, fun _ => ⟨_, rfl⟩⟩, fun _ => placing.perm,
        fun _ straight => absurd circular straight⟩
      rintro ⟨_, _, failed⟩
      cases failed

/-- The analyzers that come with the program, of which the first one depends on the second. -/
theorem run_in_sequence_builtin :
    Analysis.engine Registry.builtin .all = .ok (Analysis.fresh Registry.builtin .all) ∧
      ¬Incomplete Registry.builtin ∧ ¬Circular Registry.builtin ∧
      ∃ r, ((Analysis.fresh Registry.builtin .all).run .empty).2 = .ok r ∧
        ((Analysis.fresh Registry.builtin .all).run .empty).1.instruments = r.instruments ∧
        Sequenced .empty .all Registry.builtin r := by
  have registered := Analysis.engine_registers .all Registry.ids_apart
    fun a listed => .inl (Registry.builtin_shaped a listed).1
  obtain ⟨missing, cycle, -, sequenced⟩ := run_in_sequence registered .empty
  obtain ⟨e, ordered⟩ := Analysis.fresh_order (.refl Registry.builtin) .all
  obtain ⟨measured, ok⟩ := run_ok ordered .empty
  have complete : ¬Incomplete Registry.builtin := by
    intro incomplete
    obtain ⟨a, d, failed⟩ := missing.mpr incomplete
    cases ok.symm.trans failed
  have straight : ¬Circular Registry.builtin := by
    intro circular
    obtain ⟨ids, failed⟩ := (cycle complete).mpr circular
    cases ok.symm.trans failed
  exact ⟨registered, complete, straight, sequenced complete straight⟩

end Engine

end PhpAnalyser
