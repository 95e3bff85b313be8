import PhpAnalyser.Proofs.Measure.Sequence
/-!
What an engine reports when the dependencies form a cycle: all the analyzers whose turn can never
come. These are the ones on a cycle, and any other that needs one of them.
-/
namespace PhpAnalyser

open Relation (ReflTransGen TransGen)

/-- An analyzer that depends on itself, perhaps through others. -/
def OnCycle (registered : List Analyzer) (id : String) : Prop :=
  TransGen (DependsOn registered) id id

/-- An analyzer that is on a cycle, or depends on one that is, perhaps through others. -/
def LeadsToCycle (registered : List Analyzer) (id : String) : Prop :=
  ∃ c, ReflTransGen (DependsOn registered) id c ∧ OnCycle registered c

namespace Engine

section Placing

variable {all placed pending : List Instrument} (placing : Placing all placed pending)
  (apart : (all.map (·.id)).Nodup)
include placing apart

/-- What a placed analyzer depends on is placed. -/
theorem Placing.step {id dependency : String} (there : id ∈ placed.map (·.id))
    (depends : DependsOn (all.map (·.analyzer)) id dependency) :
    DependsOn (placed.map (·.analyzer)) id dependency ∧ dependency ∈ placed.map (·.id) := by
  obtain ⟨a, listed, rfl, asked⟩ := depends
  obtain ⟨i, known, rfl⟩ := List.mem_map.mp listed
  have once := (placing.perm.map (·.id)).nodup_iff.mpr apart
  rw [List.map_append] at once
  have member : i ∈ placed := by
    refine (List.mem_append.mp (placing.perm.mem_iff.mpr known)).resolve_right fun waits => ?_
    exact (List.nodup_append.mp once).2.2 _ there _ (List.mem_map_of_mem waits) rfl
  obtain ⟨before, behind, split⟩ :=
    List.append_of_mem (List.mem_map_of_mem (f := (·.analyzer)) member)
  refine ⟨⟨i.analyzer, List.mem_map_of_mem member, rfl, asked⟩, ?_⟩
  have ready := placing.ready before i.analyzer behind split dependency asked
  rw [← ids_of_analyzers, split, List.map_append]
  exact List.mem_append_left _ ready

/-- From a placed analyzer no path leads away from the placed ones. -/
theorem Placing.path {id dependency : String} (there : id ∈ placed.map (·.id))
    (path : TransGen (DependsOn (all.map (·.analyzer))) id dependency) :
    TransGen (DependsOn (placed.map (·.analyzer))) id dependency ∧
      dependency ∈ placed.map (·.id) := by
  induction path with
  | single depends =>
    obtain ⟨depends, placed⟩ := placing.step apart there depends
    exact ⟨.single depends, placed⟩
  | tail _ depends ih =>
    obtain ⟨depends, placed⟩ := placing.step apart ih.2 depends
    exact ⟨ih.1.tail depends, placed⟩

theorem Placing.not_leads_to_cycle {id : String} (there : id ∈ placed.map (·.id)) :
    ¬LeadsToCycle (all.map (·.analyzer)) id := by
  rintro ⟨c, reaches, around⟩
  have met : c ∈ placed.map (·.id) := by
    rcases Relation.reflTransGen_iff_eq_or_transGen.mp reaches with rfl | path
    · exact there
    · exact (placing.path apart there path).2
  have once := (placing.perm.map (·.id)).nodup_iff.mpr apart
  rw [List.map_append] at once
  have once : ((placed.map (·.analyzer)).map (·.id)).Nodup := by
    rw [ids_of_analyzers]
    exact (List.nodup_append.mp once).1
  exact not_circular_of_ready once placing.ready ⟨c, (placing.path apart met around).1⟩

variable (complete : missing? all = none) (stuck : ∀ i ∈ pending, isReady placed i = false)
include complete stuck

/-- The analyzers that are left over are those from which a cycle can be reached. -/
theorem Placing.left_over (id : String) :
    id ∈ pending.map (·.id) ↔ LeadsToCycle (all.map (·.analyzer)) id := by
  constructor
  · intro waits
    classical
    -- Of those that wait, the ones in reach of this one wait for one in its reach.
    have here : id ∈ (pending.map (·.id)).filter
        (ReflTransGen (DependsOn (all.map (·.analyzer))) id ·) := by simp [waits, ReflTransGen.refl]
    obtain ⟨c, listed, around⟩ := cycle_of_waiting (List.ne_nil_of_mem here) fun x listed => by
      obtain ⟨member, reached⟩ := List.mem_filter.mp listed
      obtain ⟨dependency, waits, depends⟩ := placing.waits complete stuck x member
      exact ⟨dependency, List.mem_filter.mpr
        ⟨waits, by simpa using (of_decide_eq_true reached).tail depends⟩, depends⟩
    exact ⟨c, of_decide_eq_true (List.mem_filter.mp listed).2, around⟩
  · intro leads
    have known : id ∈ all.map (·.id) := by
      obtain ⟨c, reaches, around⟩ := leads
      have path : TransGen (DependsOn (all.map (·.analyzer))) id c :=
        TransGen.trans_right reaches around
      obtain ⟨_, ⟨a, listed, rfl, _⟩, _⟩ := TransGen.head'_iff.mp path
      rw [← ids_of_analyzers]
      exact List.mem_map_of_mem listed
    rw [← (placing.perm.map (·.id)).mem_iff, List.map_append, List.mem_append] at known
    exact known.resolve_left fun there => placing.not_leads_to_cycle apart there leads

end Placing

/-- The report of a cycle names, in the order of the engine, the analyzers from which a cycle can
be reached. One of them is on a cycle; all of them are only where none but those on a cycle depends
on one that is. -/
theorem cycle_report_names {e : Engine} (reached : Reached e) {m : CodeModel} {ids : List String}
    (failed : (e.run m).2 = .error (.dependencyCycle ids)) :
    ids.Sublist e.ids ∧
    (∀ id, id ∈ ids ↔ LeadsToCycle (e.instruments.map (·.analyzer)) id) ∧
    (∃ id ∈ ids, OnCycle (e.instruments.map (·.analyzer)) id) ∧
    ((∀ id ∈ ids, OnCycle (e.instruments.map (·.analyzer)) id) ↔
      ∀ id dependency, DependsOn (e.instruments.map (·.analyzer)) id dependency →
        OnCycle (e.instruments.map (·.analyzer)) dependency →
        OnCycle (e.instruments.map (·.analyzer)) id) := by
  have apart := reached.apart
  have placing := place_placing apart e.instruments.length
  have stuck := place_stuck [] (Nat.le_refl e.instruments.length)
  have fresh : e.ordered = false := by
    by_contra ordered
    rw [run, order, if_pos (by simpa using ordered)] at failed
    cases failed
  rcases order_cases fresh with
    ⟨fault, missing, eq⟩ | ⟨complete, placed, pending, split, ⟨-, eq⟩ | ⟨some, eq⟩⟩ <;>
    rw [run, eq] at failed
  · obtain ⟨a, d, rfl⟩ := missing_some missing
    cases failed
  · cases failed
  · obtain rfl : pending.map (·.id) = ids := by injection failed with same; injection same
    rw [split] at placing stuck
    have names := placing.left_over apart complete stuck
    refine ⟨placing.waiting.map _, names, ?_, fun every id dependency depends around => ?_,
      fun closed id listed => ?_⟩
    · exact cycle_of_waiting (by simpa using some) (placing.waits complete stuck)
    · exact every id ((names id).mpr ⟨dependency, .single depends, around⟩)
    · obtain ⟨c, reaches, around⟩ := (names id).mp listed
      induction reaches using ReflTransGen.head_induction_on with
      | refl => exact around
      | head depends _ ih => exact closed _ _ depends (ih ((names _).mpr ⟨c, ‹_›, around⟩))

def idle (id : String) (dependencies : List String) : Analyzer where
  id
  capabilities := ⟨true, false, false⟩
  dependencies
  initial := []
  measure _ _ _ := ⟨[], [], []⟩

def waiting : List Analyzer := [idle "a" ["b"], idle "b" ["a"], idle "c" ["a"]]

/-- The third analyzer is reported as well, though nothing depends on it. -/
theorem cycle_report_names_waiting :
    Analysis.engine waiting .all = .ok (Analysis.fresh waiting .all) ∧
    ((Analysis.fresh waiting .all).run .empty).2 = .error (.dependencyCycle ["a", "b", "c"]) ∧
    (ConfigError.dependencyCycle ["a", "b", "c"]).message =
      "analyzer dependencies form a cycle between a, b, c" ∧
    LeadsToCycle waiting "c" ∧ ¬OnCycle waiting "c" := by
  have registered : Analysis.engine waiting .all = .ok (Analysis.fresh waiting .all) := rfl
  have failed : ((Analysis.fresh waiting .all).run .empty).2 =
      .error (.dependencyCycle ["a", "b", "c"]) := rfl
  obtain ⟨-, names, -, -⟩ := cycle_report_names (reached_of_registered registered) failed
  refine ⟨registered, failed, by decide +kernel, (names "c").mp (by simp), fun around => ?_⟩
  obtain ⟨_, -, a, listed, -, asked⟩ := TransGen.tail'_iff.mp around
  have nowhere : ∀ a ∈ waiting, "c" ∉ a.dependencies := by simp [waiting, idle]
  exact nowhere a listed asked

end Engine

end PhpAnalyser
