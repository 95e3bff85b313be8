import PhpAnalyser.Proofs.Code.Collision
import PhpAnalyser.Proofs.Code.Grounded
/-!
What a composition leads to in any model, whatever its types use: every type has a table or has
failed. The collisions that a run reports tell which types have failed: each of these has its
reports, all in one place of the list, and no other type has any. A run without errors is one in
which all files were read and no type has failed.
-/
namespace PhpAnalyser

namespace Composing

variable {m : CodeModel} {s : Composing}

abbrev Entry := TypeDecl × List (String × Span)

structure Entry.Proper (m : CodeModel) (e : Entry) : Prop where
  known : m.type? e.1.id = some e.1
  some : e.2 ≠ []
  apart : (e.2.map fun named => lowercase named.1).Nodup

/-- The collisions of a state are those of some entries, one for each type that has failed. -/
structure Ledger (m : CodeModel) (s : Composing) (entries : List Entry) : Prop where
  written : s.collisions = entries.flatMap fun e => CodeModel.reports e.1 e.2
  proper : ∀ e ∈ entries, e.Proper m
  apart : (entries.map (·.1.id)).Nodup
  failed : ∀ i, s.resultOf i = .failed ↔ i ∈ entries.map (·.1.id)

namespace Ledger

variable {entries : List Entry}

theorem start : Ledger m (.start m) [] where
  written := rfl
  proper _ listed := absurd listed List.not_mem_nil
  apart := .nil
  failed i := by simp [start_result]

/-- A type that waits has no entry. -/
theorem fresh (ledger : Ledger m s entries) {id : Nat} (waiting : s.resultOf id = .pending) :
    id ∉ entries.map (·.1.id) := by
  intro listed
  have failed := (ledger.failed id).mpr listed
  rw [waiting] at failed
  cases failed

theorem close (ledger : Ledger m s entries) {id : Nat} (waiting : s.resultOf id = .pending)
    (table : MethodTable) : Ledger m (s.close id table) entries where
  written := ledger.written
  proper := ledger.proper
  apart := ledger.apart
  failed i := by
    rw [close_result]
    split
    next here =>
      rw [here.1]
      simp [ledger.fresh waiting]
    next => exact ledger.failed i

theorem fail (ledger : Ledger m s entries) {t : TypeDecl} {named : List (String × Span)}
    (proper : Entry.Proper m (t, named)) (waiting : s.resultOf t.id = .pending)
    (inside : t.id < s.results.size) :
    Ledger m (s.fail t.id (CodeModel.reports t named)) (entries ++ [(t, named)]) where
  written := by
    simp [Composing.fail, ledger.written]
  proper e listed := by
    rcases List.mem_append.mp listed with old | new
    · exact ledger.proper e old
    · rwa [List.mem_singleton.mp new]
  apart := by
    rw [List.map_append, List.nodup_append]
    refine ⟨ledger.apart, List.nodup_singleton _, fun i old j new same => ?_⟩
    rw [same, List.mem_singleton.mp new] at old
    exact ledger.fresh waiting old
  failed i := by
    rw [fail_result, List.map_append, List.mem_append, ← ledger.failed i]
    by_cases here : i = t.id
    · simp [here, inside]
    · simp [here]

end Ledger

/-- The reports of a type that fails make up an entry. -/
theorem entry_of_error {t : TypeDecl} {tables : Nat → MethodTable} {reported : List Diagnostic}
    (found : m.type? t.id = some t)
    (error : m.tableOf t (Offers.gathered tables (m.usedTraits t)) = .error reported) :
    ∃ named, reported = CodeModel.reports t named ∧ Entry.Proper m (t, named) := by
  obtain ⟨named, same, some, apart, -⟩ := CodeModel.reports_of_error (Offers.gathered_tidy _)
    (CodeModel.gathered_placed m t tables) error
  exact ⟨named, same, found, some, apart⟩

/-- The collisions that turns report are those of some entries. -/
theorem Turns.ledger {turns : List Turn} (run : Turns m turns s) :
    ∃ entries, Ledger m s entries := by
  induction run with
  | start => exact ⟨[], .start⟩
  | @next turns turn before due ih =>
    obtain ⟨entries, ledger⟩ := ih
    rw [Turn.after]
    cases verdict : turn.verdict m with
    | ok table => exact ⟨entries, ledger.close due.waits table⟩
    | error found =>
      obtain ⟨named, rfl, proper⟩ := entry_of_error due.known verdict
      exact ⟨_, ledger.fail proper due.waits (before.inside due)⟩

/-- In the end each failed type has its reports, and nothing else is reported. -/
theorem run_all_ledger (numbered : Numbered TypeDecl.id m.types) {depth : Nat}
    (deep : m.types.size < depth) : ∃ entries, Ledger m (runAll m depth) entries := by
  obtain ⟨turns, swept⟩ := run_all_swept numbered deep
  obtain ⟨entries, ledger⟩ := swept.run.ledger
  exact ⟨entries, ledger.written, ledger.proper, ledger.apart, ledger.failed⟩

end Composing

def AllRead (calls : List Added) : Prop :=
  ∀ (k : Nat) (call : Added), calls[k]? = some call → ∃ t, call.outcome k = .ok t

theorem Added.outcome_some {call : Added} {file : Nat} {errors : List ParseError}
    (rejected : call.outcome file = .error errors) : errors ≠ [] := by
  have parsed {source : String} (same : parse source file = .error errors) : errors ≠ [] := by
    rcases parse_cases source file with ⟨s, root, run, -⟩ | ⟨found, run, disciplined⟩
    · rw [parse, parseTokens, run] at same
      cases same
    · rw [parse, parseTokens, run] at same
      cases same
      exact disciplined.nonempty
  cases call with
  | source name text => exact parsed rejected
  | bytes name content =>
    simp only [Added.outcome] at rejected
    cases decoded : decodeSource content with
    | ok text =>
      simp only [decoded] at rejected
      exact parsed rejected
    | error e =>
      simp only [decoded, Except.error.injEq] at rejected
      rw [← rejected]
      exact List.cons_ne_nil _ _

namespace Kept

variable {calls : List Added} {a : Assembly} {d : Diagnostic}

/-- What is said of a file is an error in its text, or a warning on a declaration in it. -/
theorem told_cases (kept : Kept calls a) (listed : d ∈ a.diagnostics) :
    (∃ call errors, calls[d.file]? = some call ∧ call.outcome d.file = .error errors ∧
      ∃ e, d = .ofParseError d.file e) ∨ ∃ (t : SyntaxTree) (i : Nat), d = t.duplicateAt i := by
  have low := kept.told d listed
  have given := List.getElem?_eq_getElem low
  have found := kept.filed.found d.file _ given
  have here : d ∈ a.diagnostics.filter (·.file = d.file) :=
    List.mem_filter.mpr ⟨listed, decide_eq_true rfl⟩
  cases read : calls[d.file].outcome d.file with
  | ok t =>
    right
    simp only [read] at found
    obtain ⟨f, known, file, -⟩ := found
    have there := List.mem_of_find?_eq_some known
    have warned := (kept.files f there).reported.warned
    rw [file] at warned
    rw [warned] at here
    obtain ⟨i, -, same⟩ := List.mem_map.mp here
    exact ⟨f.tree, i, same.symm⟩
  | error errors =>
    left
    simp only [read] at found
    rw [found.2] at here
    obtain ⟨e, -, same⟩ := List.mem_map.mp here
    exact ⟨_, errors, given, read, e, same.symm⟩

/-- A text that was not read leaves an error. -/
theorem error_of_rejected (kept : Kept calls a) {k : Nat} {call : Added} {errors : List ParseError}
    (given : calls[k]? = some call) (rejected : call.outcome k = .error errors) :
    ∃ d ∈ a.diagnostics, d.isError = true := by
  obtain ⟨e, member⟩ := List.exists_mem_of_ne_nil _ (Added.outcome_some rejected)
  have found := kept.filed.found k call given
  simp only [rejected] at found
  have listed : Diagnostic.ofParseError k e ∈ a.diagnostics.filter (·.file = k) := by
    rw [found.2]
    exact List.mem_map_of_mem member
  exact ⟨_, (List.mem_filter.mp listed).1, rfl⟩

theorem duplicate_warns (t : SyntaxTree) (i : Nat) : (t.duplicateAt i).isError = false := by
  unfold SyntaxTree.duplicateAt
  split <;> rfl

/-- Before anything is composed, there are errors if a text was not read, and only then. -/
theorem errors_iff (kept : Kept calls a) :
    a.diagnostics.any (·.isError) = false ↔ AllRead calls := by
  rw [List.any_eq_false]
  constructor
  · intro fine k call given
    cases read : call.outcome k with
    | ok t => exact ⟨t, rfl⟩
    | error errors =>
      obtain ⟨d, listed, isError⟩ := kept.error_of_rejected given read
      exact absurd isError (fine d listed)
  · intro all d listed isError
    rcases kept.told_cases listed with ⟨call, errors, given, rejected, -⟩ | ⟨t, i, rfl⟩
    · obtain ⟨t, read⟩ := all d.file call given
      cases read.symm.trans rejected
    · rw [duplicate_warns] at isError
      cases isError

theorem duplicate_kind (t : SyntaxTree) (i : Nat) : (t.duplicateAt i).kind = .duplicateSymbol := by
  unfold SyntaxTree.duplicateAt
  split <;> rfl

/-- Before anything is composed, no collision is reported. -/
theorem no_collision (kept : Kept calls a) (listed : d ∈ a.diagnostics) (t : TypeDecl)
    (method : String) : ¬d.Names t method := by
  rintro ⟨span, same⟩
  have kind : d.kind = .methodCollision := by rw [same]; rfl
  rcases kept.told_cases listed with ⟨-, -, -, -, e, parsed⟩ | ⟨tree, i, warned⟩
  · rw [parsed] at kind
    cases fault : e.fault <;>
      simp [Diagnostic.ofParseError, ParseFault.diagnosticKind, fault] at kind
  · rw [warned, duplicate_kind] at kind
    cases kind

end Kept

namespace CodeModel

variable {m : CodeModel}

theorem Origin.recomposed {id : Nat} {binding : MethodBinding} (origin : m.Origin id binding)
    (g : Nat → Composition) : (m.recomposed g).Origin id binding := by
  have same : (m.recomposed g).UsesTrait = m.UsesTrait := recomposed_uses m g
  cases origin with
  | own source belongs => exact .own source belongs
  | lent t owner source uses reaches belongs =>
    rw [← same] at uses reaches
    exact .lent t owner source uses reaches belongs

theorem Grounded.recomposed {t : TypeDecl} {table : MethodTable} (grounded : m.Grounded t table)
    (g : Nat → Composition) : (m.recomposed g).Grounded (t.recomposed g) table where
  tidy := grounded.tidy
  declared := grounded.declared
  origin key binding found := (grounded.origin key binding found).recomposed g

/-- A model whose types are composed, with the reports that go with it. -/
structure Composed (f : CodeModel) (diagnostics : List Diagnostic) : Prop where
  settled : ∀ t ∈ f.types, t.composition ≠ .pending
  failed : ∀ t ∈ f.types,
    t.composition = .failed ↔ ∃ d ∈ diagnostics, ∃ method, d.Names t method
  once : ∀ t ∈ f.types, diagnostics.Pairwise fun d d' => ∀ method method',
    d.Names t method → d'.Names t method' → lowercase method ≠ lowercase method'
  grounded : ∀ t ∈ f.types, ∀ table, t.composition = .composed table → f.Grounded t table

end CodeModel

namespace Composing.Ledger

variable {calls : List Added} {a : Assembly} {s : Composing} {entries : List Entry} {d : Diagnostic}
  {t : TypeDecl} {method : String}

theorem names_of_report {named : List (String × Span)} (listed : d ∈ CodeModel.reports t named) :
    ∃ e ∈ named, d.Names t e.1 := by
  obtain ⟨e, member, rfl⟩ := List.mem_map.mp listed
  exact ⟨e, member, e.2, rfl⟩

/-- The entry that a report of a collision belongs to. -/
theorem entry_of_names (ledger : Ledger a.model s entries) (kept : Kept calls a)
    (member : t ∈ a.model.types) {e : Entry} (listed : e ∈ entries)
    (reported : d ∈ CodeModel.reports e.1 e.2) (names : d.Names t method) :
    t = e.1 ∧ ∃ named ∈ e.2, method = named.1 := by
  obtain ⟨named, inside, about⟩ := names_of_report reported
  have known := Array.mem_of_getElem? (ledger.proper e listed).known
  obtain ⟨same, methods⟩ := kept.names_one member known names about
  exact ⟨same, named, inside, methods⟩

/-- The types with entries are those that are named. -/
theorem failed_iff (ledger : Ledger a.model s entries) (kept : Kept calls a)
    (member : t ∈ a.model.types) :
    s.resultOf t.id = .failed ↔ ∃ d ∈ s.collisions, ∃ method, d.Names t method := by
  rw [ledger.failed, ledger.written]
  constructor
  · intro listed
    obtain ⟨e, inside, same⟩ := List.mem_map.mp listed
    have proper := ledger.proper e inside
    have known := Array.mem_of_getElem? proper.known
    have one : e.1 = t := kept.indexed.types_numbered.inj known member same
    obtain ⟨named, first⟩ := List.exists_mem_of_ne_nil _ proper.some
    refine ⟨.collision named.1 e.1.qualifiedName e.1.file named.2, ?_, named.1, named.2, ?_⟩
    · exact List.mem_flatMap.mpr ⟨e, inside, List.mem_map.mpr ⟨named, first, rfl⟩⟩
    · rw [one]
  · rintro ⟨d, listed, method, names⟩
    obtain ⟨e, inside, reported⟩ := List.mem_flatMap.mp listed
    rw [(ledger.entry_of_names kept member inside reported names).1]
    exact List.mem_map_of_mem inside

/-- No two reports are about one method of a type. -/
theorem pairwise (ledger : Ledger a.model s entries) (kept : Kept calls a)
    (member : t ∈ a.model.types) : s.collisions.Pairwise fun d d' => ∀ method method',
      d.Names t method → d'.Names t method' → lowercase method ≠ lowercase method' := by
  rw [ledger.written, List.pairwise_flatMap]
  constructor
  · intro e inside
    have proper := ledger.proper e inside
    have known := Array.mem_of_getElem? proper.known
    have apart := proper.apart
    rw [List.Nodup, List.pairwise_map] at apart
    rw [CodeModel.reports, List.pairwise_map]
    refine apart.imp fun different method method' names names' => ?_
    rw [(kept.names_one member known names ⟨_, rfl⟩).2,
      (kept.names_one member known names' ⟨_, rfl⟩).2]
    exact different
  · have apart := ledger.apart
    rw [List.Nodup, List.pairwise_map] at apart
    refine apart.imp_of_mem fun inside inside' different d reported d' reported' method method'
      names names' => ?_
    have first := (ledger.entry_of_names kept member inside reported names).1
    have second := (ledger.entry_of_names kept member inside' reported' names').1
    rw [← first, ← second] at different
    exact absurd rfl different

/-- Collisions are errors. -/
theorem errors_iff (ledger : Ledger a.model s entries) :
    s.collisions.any (·.isError) = false ↔ ∀ t ∈ a.model.types, s.resultOf t.id ≠ .failed := by
  rw [List.any_eq_false, ledger.written]
  constructor
  · intro none t _ failed
    obtain ⟨e, inside, -⟩ := List.mem_map.mp ((ledger.failed t.id).mp failed)
    obtain ⟨named, first⟩ := List.exists_mem_of_ne_nil _ (ledger.proper e inside).some
    have reported : Diagnostic.collision named.1 e.1.qualifiedName e.1.file named.2 ∈
        CodeModel.reports e.1 e.2 := List.mem_map.mpr ⟨named, first, rfl⟩
    exact none _ (List.mem_flatMap.mpr ⟨e, inside, reported⟩) rfl
  · intro none d listed
    obtain ⟨e, inside, -⟩ := List.mem_flatMap.mp listed
    have known := Array.mem_of_getElem? (ledger.proper e inside).known
    have failed := (ledger.failed e.1.id).mpr (List.mem_map_of_mem inside)
    exact absurd failed (none e.1 known)

end Composing.Ledger

namespace Assembly

open Composing (runAll)

def runOf (calls : List Added) : Composing :=
  runAll (registered calls) ((registered calls).types.size + 1)

theorem diagnostics_eq (calls : List Added) :
    (after calls).finish.diagnostics = (after calls).diagnostics ++ (runOf calls).collisions := rfl

theorem ledger_after (calls : List Added) :
    ∃ entries, Composing.Ledger (registered calls) (runOf calls) entries :=
  Composing.run_all_ledger (types_numbered calls) (Nat.lt_succ_self _)

theorem composed_after (calls : List Added) :
    (finished calls).Composed (after calls).finish.diagnostics := by
  have kept := kept_after calls
  obtain ⟨entries, ledger⟩ := ledger_after calls
  constructor
  case settled =>
    intro t member
    obtain ⟨r, there, rfl⟩ := mem_finished member
    exact Composing.run_all_settled (types_numbered calls) (Nat.lt_succ_self _) there
  case failed =>
    intro t member
    obtain ⟨r, there, rfl⟩ := mem_finished member
    apply (ledger.failed_iff kept there).trans
    rw [diagnostics_eq]
    constructor
    · rintro ⟨d, listed, names⟩
      exact ⟨d, List.mem_append_right _ listed, names⟩
    · rintro ⟨d, listed, method, names⟩
      rcases List.mem_append.mp listed with before | here
      · exact absurd names (kept.no_collision before r method)
      · exact ⟨d, here, method, names⟩
  case once =>
    intro t member
    obtain ⟨r, there, rfl⟩ := mem_finished member
    have apart := ledger.pairwise kept there
    rw [diagnostics_eq, List.pairwise_append]
    refine ⟨?_, apart, ?_⟩
    · refine List.pairwise_of_forall_mem_list fun d listed d' _ method method' names => ?_
      exact absurd names (kept.no_collision listed r method)
    · intro d listed d' _ method method' names
      exact absurd names (kept.no_collision listed r method)
  case grounded =>
    intro t member table composed
    obtain ⟨r, there, rfl⟩ := mem_finished member
    have tabled := Composing.run_all_tabled kept.referential
      (Nat.lt_succ_self (registered calls).types.size)
    exact (tabled r there table composed).recomposed _

/-- Without errors, all files were read and no type has failed. -/
theorem success_after (calls : List Added) : (after calls).finish.isSuccess = true ↔
    AllRead calls ∧ ∀ t ∈ (finished calls).types, t.composition ≠ .failed := by
  obtain ⟨entries, ledger⟩ := ledger_after calls
  rw [isSuccess, diagnostics_eq, List.any_append, Bool.not_eq_true', Bool.or_eq_false_iff,
    (kept_after calls).errors_iff, ledger.errors_iff]
  refine and_congr_right fun _ => ⟨fun none t member => ?_, fun none r there => ?_⟩
  · obtain ⟨r, there, rfl⟩ := mem_finished member
    exact none r there
  · exact none _ (Array.mem_map_of_mem there)

/-- Whatever types use each other, their composition comes to an end, without a bound on its depth,
and every type then has a table that holds what it should, or has failed and is reported. -/
theorem composition_total (calls : List Added) :
    (∃ s, Composing.RunsEach (registered calls) (.start (registered calls))
        ((registered calls).types.toList.map (·.id)) s ∧
      finished calls = (registered calls).recomposed s.resultOf ∧
      (after calls).finish.diagnostics = (after calls).diagnostics ++ s.collisions) ∧
    (finished calls).Composed (after calls).finish.diagnostics ∧
    ((after calls).finish.isSuccess = true ↔
      AllRead calls ∧ ∀ t ∈ (finished calls).types, t.composition ≠ .failed) :=
  ⟨⟨runOf calls, Composing.run_all_runs (Nat.lt_succ_self _), rfl, rfl⟩, composed_after calls,
    success_after calls⟩

end Assembly

end PhpAnalyser
