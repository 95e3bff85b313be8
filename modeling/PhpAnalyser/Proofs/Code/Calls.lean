import PhpAnalyser.Code.Assembly
import PhpAnalyser.Proofs.Code.Account
import PhpAnalyser.Proofs.Grammar.Outcome
/-!
What holds after any sequence of files has been added.
-/
namespace PhpAnalyser

inductive Added where
  | source (name text : String)
  | bytes (name : String) (content : List UInt8)

namespace Added

def name : Added → String
  | source name _ => name
  | bytes name _ => name

def outcome (file : Nat) : Added → Except (List ParseError) SyntaxTree
  | source _ text => parse text file
  | bytes _ content =>
    match decodeSource content with
    | .ok text => parse text file
    | .error e => .error [e.toParseError]

end Added

namespace Assembly

def add (a : Assembly) : Added → Assembly × Bool
  | .source name text => a.addSource name text
  | .bytes name content => a.addBytes name content

def after (calls : List Added) : Assembly := calls.foldl (fun a call => (a.add call).1) .empty

theorem after_append (calls : List Added) (call : Added) :
    after (calls ++ [call]) = ((after calls).add call).1 := by
  simp [after]

theorem add_accepted {a : Assembly} {call : Added} {t : SyntaxTree}
    (accepted : call.outcome a.fileNames.length = .ok t) :
    a.add call = (⟨(a.model.register call.name t).1,
      a.diagnostics ++ (a.model.register call.name t).2, a.fileNames ++ [call.name]⟩, true) := by
  cases call with
  | source name text =>
    simp only [Added.outcome] at accepted
    simp only [add, addSource, accepted]
    rfl
  | bytes name content =>
    simp only [Added.outcome] at accepted
    simp only [add, addBytes, addSource]
    cases decoded : decodeSource content with
    | ok text =>
      simp only [decoded] at accepted ⊢
      simp only [accepted]
      rfl
    | error e => simp [decoded] at accepted

theorem add_rejected {a : Assembly} {call : Added} {errors : List ParseError}
    (rejected : call.outcome a.fileNames.length = .error errors) :
    a.add call =
      (a.reject call.name (errors.map (.ofParseError a.fileNames.length)), false) := by
  cases call with
  | source name text =>
    simp only [Added.outcome] at rejected
    simp only [add, addSource, rejected]
    rfl
  | bytes name content =>
    simp only [Added.outcome] at rejected
    simp only [add, addBytes, addSource]
    cases decoded : decodeSource content with
    | ok text =>
      simp only [decoded] at rejected ⊢
      simp only [rejected]
      rfl
    | error e =>
      simp only [decoded, Except.error.injEq] at rejected ⊢
      rw [← rejected]
      rfl

end Assembly

/-- Each call took the next number, and a number leads to a file if its text was accepted. -/
structure Filed (calls : List Added) (a : Assembly) : Prop where
  names : a.fileNames = calls.map Added.name
  ordered : (a.model.files.map (·.id)).Pairwise (· < ·)
  within : ∀ f ∈ a.model.files, f.id < calls.length
  found : ∀ (k : Nat) (call : Added), calls[k]? = some call →
    match call.outcome k with
    | .ok t => ∃ f, a.model.file? k = some f ∧ f.id = k ∧ f.name = call.name ∧ t.Marked f.tree
    | .error errors => a.model.file? k = none ∧
      a.diagnostics.filter (·.file = k) = errors.map (.ofParseError k)

/-- What is kept of a file that was accepted. -/
structure FileKept (a : Assembly) (f : SourceFile) : Prop where
  treelike : f.tree.Treelike
  file : f.tree.file = f.id
  sourced : Sourced a.model f.tree f.primed (f.tree.declarations "" f.tree.root)
  reported : Reported a.model (a.diagnostics.filter (·.file = f.id)) f.tree
    ((f.tree.declarations "" f.tree.root).map (·.2))

structure Kept (calls : List Added) (a : Assembly) : Prop where
  filed : Filed calls a
  told : ∀ d ∈ a.diagnostics, d.file < calls.length
  indexed : a.model.Indexed
  types_filed : ∀ d ∈ a.model.types, ∃ f ∈ a.model.files, f.id = d.file
  callables_filed : ∀ c ∈ a.model.callables, ∃ f ∈ a.model.files, f.id = c.file
  files : ∀ f ∈ a.model.files, FileKept a f

theorem parse_file {source : String} {file : Nat} {t : SyntaxTree}
    (accepted : parse source file = .ok t) : t.file = file := by
  rcases parse_cases source file with ⟨s, root, same, -⟩ | ⟨errors, same, -⟩
  · rw [parse, parseTokens, same, Option.getD_some] at accepted
    cases accepted
    rfl
  · rw [parse, parseTokens, same, Option.getD_some] at accepted
    cases accepted

theorem treelike_of_accepted {source : String} {file : Nat} {t : SyntaxTree}
    (accepted : parse source file = .ok t) : t.Treelike := by
  obtain ⟨s, nodes, complete, -⟩ := complete_of_accepted accepted
  have shaped := complete.shaped
  rw [← nodes] at shaped
  exact SyntaxTree.treelike_of_shaped shaped

/-- The tree of a file is that of some text. -/
theorem Added.parse_of_outcome {call : Added} {file : Nat} {t : SyntaxTree}
    (accepted : call.outcome file = .ok t) : ∃ source, parse source file = .ok t := by
  cases call with
  | source name text => exact ⟨text, accepted⟩
  | bytes name content =>
    simp only [Added.outcome] at accepted
    cases decoded : decodeSource content with
    | ok text =>
      simp only [decoded] at accepted
      exact ⟨text, accepted⟩
    | error e => simp [decoded] at accepted

theorem Added.outcome_tree {call : Added} {file : Nat} {t : SyntaxTree}
    (accepted : call.outcome file = .ok t) : t.file = file ∧ t.Treelike := by
  obtain ⟨source, parsed⟩ := Added.parse_of_outcome accepted
  exact ⟨parse_file parsed, treelike_of_accepted parsed⟩

section Files

variable {m : CodeModel} {new : SourceFile}

theorem file_of_append (k : Nat) (other : new.id ≠ k) :
    { m with files := m.files ++ [new] }.file? k = m.file? k := by
  simp [CodeModel.file?, List.find?_append, other]

theorem file_of_new (fresh : ∀ f ∈ m.files, f.id ≠ new.id) :
    { m with files := m.files ++ [new] }.file? new.id = some new := by
  have none : m.files.find? (·.id = new.id) = none := by
    simpa using fresh
  simp [CodeModel.file?, List.find?_append, none]

end Files

theorem duplicate_at_file (t : SyntaxTree) (i : Nat) : (t.duplicateAt i).file = t.file := by
  unfold SyntaxTree.duplicateAt
  split <;> rfl

theorem filter_append_elsewhere {diagnostics found : List Diagnostic} {file k : Nat}
    (there : ∀ d ∈ found, d.file = file) (other : file ≠ k) :
    (diagnostics ++ found).filter (·.file = k) = diagnostics.filter (·.file = k) := by
  apply filter_old_key
  intro d listed
  rwa [there d listed]

theorem filter_append_here {diagnostics found : List Diagnostic} {file : Nat}
    (before : ∀ d ∈ diagnostics, d.file < file) (here : ∀ d ∈ found, d.file = file) :
    (diagnostics ++ found).filter (·.file = file) = found :=
  filter_new_key (fun d listed => Nat.ne_of_lt (before d listed)) here

theorem given_cases {calls : List Added} {call given : Added} {k : Nat}
    (at_ : (calls ++ [call])[k]? = some given) :
    (k < calls.length ∧ calls[k]? = some given) ∨ (k = calls.length ∧ given = call) := by
  rw [List.getElem?_append] at at_
  split at at_
  · rename_i low
    exact .inl ⟨low, at_⟩
  · rename_i high
    rw [List.getElem?_singleton] at at_
    split at at_
    · rename_i first
      cases at_
      exact .inr ⟨by omega, rfl⟩
    · cases at_

theorem told_append {diagnostics found : List Diagnostic} {file : Nat}
    (before : ∀ d ∈ diagnostics, d.file < file) (here : ∀ d ∈ found, d.file = file) :
    ∀ d ∈ diagnostics ++ found, d.file < file + 1 := by
  intro d listed
  rcases List.mem_append.mp listed with old | new
  · exact Nat.lt_succ_of_lt (before d old)
  · rw [here d new]
    exact Nat.lt_succ_self file

namespace Kept

variable {calls : List Added} {a : Assembly}

theorem empty : Kept [] .empty where
  filed := ⟨rfl, by simp [Assembly.empty, CodeModel.empty], by simp [Assembly.empty, CodeModel.empty],
    by simp⟩
  told := by simp [Assembly.empty]
  indexed := CodeModel.indexed_empty
  types_filed := by simp [Assembly.empty, CodeModel.empty]
  callables_filed := by simp [Assembly.empty, CodeModel.empty]
  files := by simp [Assembly.empty, CodeModel.empty]

theorem count (kept : Kept calls a) : a.fileNames.length = calls.length := by
  rw [kept.filed.names, List.length_map]

/-- A file that was accepted before keeps its account when other files say or add something. -/
theorem older (kept : Kept calls a) {f : SourceFile} (member : f ∈ a.model.files)
    {m : CodeModel} {found : List Diagnostic} {types : List TypeDecl} {callables : List Callable}
    {properties : List Property} (grows : a.model.Grows m types callables properties)
    (there : ∀ d ∈ found, d.file = calls.length)
    (type_file : ∀ d ∈ types, d.file = calls.length)
    (callable_file : ∀ c ∈ callables, c.file = calls.length)
    (owner : ∀ p ∈ properties, ∃ d ∈ types, d.id = p.owner) (names : List String) :
    FileKept ⟨m, a.diagnostics ++ found, names⟩ f := by
  obtain ⟨treelike, file, sourced, reported⟩ := kept.files f member
  have before := kept.filed.within f member
  have other : calls.length ≠ f.id := by omega
  refine ⟨treelike, file, ?_, ?_⟩
  · rw [← file] at other
    exact sourced.elsewhere grows other type_file callable_file owner
  · simp only [filter_append_elsewhere there other]
    have same : ∀ i, m.entitiesAt f.tree.file i = a.model.entitiesAt f.tree.file i := by
      rw [file]
      refine grows.entities_elsewhere ?_ ?_
      · exact fun d listed here => other ((type_file d listed).symm.trans here)
      · exact fun c listed here => other ((callable_file c listed).symm.trans here)
    constructor
    · intro i listed
      rw [same]
      exact reported.once i listed
    · simp only [same]
      exact reported.warned

theorem reject (kept : Kept calls a) {call : Added} {errors : List ParseError}
    (rejected : call.outcome calls.length = .error errors) :
    Kept (calls ++ [call])
      (a.reject call.name (errors.map (.ofParseError calls.length))) := by
  have there : ∀ d ∈ errors.map (Diagnostic.ofParseError calls.length), d.file = calls.length := by
    intro d listed
    obtain ⟨e, -, rfl⟩ := List.mem_map.mp listed
    rfl
  constructor
  · constructor
    · simp [Assembly.reject, kept.filed.names]
    · exact kept.filed.ordered
    · intro f member
      have before := kept.filed.within f member
      rw [List.length_append, List.length_singleton]
      omega
    · intro k given at_
      rcases given_cases at_ with ⟨low, old⟩ | ⟨rfl, rfl⟩
      · have found := kept.filed.found k given old
        have apart : calls.length ≠ k := by omega
        simp only [Assembly.reject, filter_append_elsewhere there apart]
        exact found
      · rw [rejected]
        refine ⟨List.find?_eq_none.mpr fun f member => ?_, filter_append_here kept.told there⟩
        have before := kept.filed.within f member
        simp only [decide_eq_true_eq]
        omega
  · rw [List.length_append, List.length_singleton]
    exact told_append kept.told there
  · exact kept.indexed
  · exact kept.types_filed
  · exact kept.callables_filed
  · exact fun f member => kept.older member (.refl _) there (by simp) (by simp) (by simp) _

theorem reports_here {m : CodeModel} {t : SyntaxTree} {entries : List (String × Nat)}
    {r : Registration} (progress : Progress m t entries r) : ∀ d ∈ r.diagnostics, d.file = t.file := by
  intro d listed
  rw [progress.reported.warned] at listed
  obtain ⟨i, -, rfl⟩ := List.mem_map.mp listed
  rw [duplicate_at_file, progress.marked.file]

/-- The account of a file that was registered just now. -/
theorem registered {m : CodeModel} {t : SyntaxTree} {r : Registration} {before : List Diagnostic}
    (tree : t.Treelike) (progress : Progress m t (t.declarations "" t.root) r)
    (told : ∀ d ∈ before, d.file < t.file) (name : String) (names : List String) :
    FileKept ⟨{ r.model with files := r.model.files ++ [⟨t.file, name, r.tree, r.primed⟩] },
      before ++ r.diagnostics, names⟩ ⟨t.file, name, r.tree, r.primed⟩ := by
  have marked := progress.marked
  have same : r.tree.declarations "" r.tree.root = t.declarations "" t.root := by
    rw [marked.root, marked.declarations tree.below]
  have here := reports_here progress
  refine ⟨marked.treelike tree, marked.file, ?_, ?_⟩
  · rw [same]
    exact progress.sourced.grows (.files _ _) (fun _ listed => listed) (by simp) (by simp) (by simp)
      (by simp) fun _ listed => .inl listed
  · rw [same, filter_append_here told here]
    exact ⟨progress.reported.once, progress.reported.warned⟩

/-- What was registered before is in another file than what comes next. -/
theorem type_elsewhere (kept : Kept calls a) {d : TypeDecl} (member : d ∈ a.model.types)
    {t : SyntaxTree} (file : t.file = calls.length) : d.file ≠ t.file := by
  obtain ⟨f, there, same⟩ := kept.types_filed d member
  have before := kept.filed.within f there
  omega

theorem callable_elsewhere (kept : Kept calls a) {c : Callable} (member : c ∈ a.model.callables)
    {t : SyntaxTree} (file : t.file = calls.length) : c.file ≠ t.file := by
  obtain ⟨f, there, same⟩ := kept.callables_filed c member
  have before := kept.filed.within f there
  omega

section Accept

variable {call : Added} {t : SyntaxTree} {entries : List (String × Nat)} {r : Registration}

/-- The registration of a file that was accepted, declaration by declaration. -/
theorem progress (kept : Kept calls a) (file : t.file = calls.length) (tree : t.Treelike) :
    Progress a.model t (t.declarations "" t.root)
      ((t.declarations "" t.root).foldl Registration.add ⟨a.model, [], t, []⟩) := by
  have declared : ∀ e ∈ t.declarations "" t.root, (t.kind e.2).declares = true := fun e listed =>
    ((SyntaxTree.mem_declarations tree.below e t.root "").mp listed).2
  exact progress_of_entries kept.indexed (fun d member => kept.type_elsewhere member file)
    (fun c member => kept.callable_elsewhere member file) _
    (SyntaxTree.declarations_nodup tree t.root "") declared

theorem ordered_added (kept : Kept calls a) (new : SourceFile) (id : new.id = calls.length) :
    ((a.model.files ++ [new]).map (·.id)).Pairwise (· < ·) := by
  rw [List.map_append, List.pairwise_append]
  refine ⟨kept.filed.ordered, List.pairwise_singleton .., fun k listed other here => ?_⟩
  obtain ⟨f, member, rfl⟩ := List.mem_map.mp listed
  rw [List.map_singleton, List.mem_singleton] at here
  rw [here, id]
  exact kept.filed.within f member

theorem within_added (kept : Kept calls a) (new : SourceFile) (id : new.id = calls.length) :
    ∀ f ∈ a.model.files ++ [new], f.id < (calls ++ [call]).length := by
  intro f listed
  rw [List.length_append, List.length_singleton]
  rcases List.mem_append.mp listed with old | here
  · exact Nat.lt_succ_of_lt (kept.filed.within f old)
  · rw [List.mem_singleton.mp here, id]
    exact Nat.lt_succ_self _

/-- The numbers of the calls lead to what they did, if one more was accepted. -/
theorem filed_accepted (kept : Kept calls a) (accepted : call.outcome calls.length = .ok t)
    (file : t.file = calls.length) (progress : Progress a.model t entries r) :
    Filed (calls ++ [call])
      ⟨{ r.model with files := r.model.files ++ [⟨t.file, call.name, r.tree, r.primed⟩] },
        a.diagnostics ++ r.diagnostics, a.fileNames ++ [call.name]⟩ := by
  have files := progress.files
  constructor
  case names => simp [kept.filed.names]
  case ordered =>
    rw [files]
    exact kept.ordered_added _ file
  case within =>
    rw [files]
    exact kept.within_added _ file
  case found =>
    intro k given at_
    rcases given_cases at_ with ⟨low, old⟩ | ⟨rfl, rfl⟩
    · have found := kept.filed.found k given old
      have apart : t.file ≠ k := by omega
      have same : r.model.file? k = a.model.file? k := by rw [CodeModel.file?, files]; rfl
      dsimp only
      rw [file_of_append k apart, same]
      simp only [filter_append_elsewhere (reports_here progress) apart]
      exact found
    · rw [accepted]
      refine ⟨⟨t.file, given.name, r.tree, r.primed⟩, ?_, file, rfl, progress.marked⟩
      rw [← file]
      refine file_of_new fun f member => ?_
      have before := kept.filed.within f (files ▸ member)
      exact Nat.ne_of_lt (file ▸ before)

theorem types_filed_added (kept : Kept calls a) (progress : Progress a.model t entries r)
    (name : String) :
    ∀ d ∈ r.model.types,
      ∃ f ∈ r.model.files ++ [⟨t.file, name, r.tree, r.primed⟩], f.id = d.file := by
  obtain ⟨types, callables, properties, grows, type_file, -⟩ := progress.grown
  intro d member
  rcases grows.type_cases member with old | new
  · obtain ⟨f, there, same⟩ := kept.types_filed d old
    exact ⟨f, List.mem_append_left _ (progress.files.symm ▸ there), same⟩
  · exact ⟨_, List.mem_append_right _ (List.mem_singleton.mpr rfl), (type_file d new).symm⟩

theorem callables_filed_added (kept : Kept calls a) (progress : Progress a.model t entries r)
    (name : String) :
    ∀ c ∈ r.model.callables,
      ∃ f ∈ r.model.files ++ [⟨t.file, name, r.tree, r.primed⟩], f.id = c.file := by
  obtain ⟨types, callables, properties, grows, -, callable_file, -⟩ := progress.grown
  intro c member
  rcases grows.callable_cases member with old | new
  · obtain ⟨f, there, same⟩ := kept.callables_filed c old
    exact ⟨f, List.mem_append_left _ (progress.files.symm ▸ there), same⟩
  · exact ⟨_, List.mem_append_right _ (List.mem_singleton.mpr rfl), (callable_file c new).symm⟩

theorem older_added (kept : Kept calls a) (file : t.file = calls.length)
    (progress : Progress a.model t entries r) {f : SourceFile} (old : f ∈ a.model.files)
    (files : List SourceFile) (names : List String) :
    FileKept ⟨{ r.model with files }, a.diagnostics ++ r.diagnostics, names⟩ f := by
  obtain ⟨types, callables, properties, grows, type_file, callable_file, owner⟩ := progress.grown
  have here := reports_here progress
  rw [file] at type_file callable_file here
  exact kept.older old (grows.trans (.files _ _)) here (by simpa using type_file)
    (by simpa using callable_file) (by simpa using owner) _

theorem accept (kept : Kept calls a) (accepted : call.outcome calls.length = .ok t) :
    Kept (calls ++ [call]) ⟨(a.model.register call.name t).1,
      a.diagnostics ++ (a.model.register call.name t).2, a.fileNames ++ [call.name]⟩ := by
  obtain ⟨file, tree⟩ := Added.outcome_tree accepted
  have progress := kept.progress file tree
  unfold CodeModel.register
  generalize (t.declarations "" t.root).foldl Registration.add ⟨a.model, [], t, []⟩ = r at progress
  have told : ∀ d ∈ a.diagnostics, d.file < t.file := file ▸ kept.told
  constructor
  case filed => exact kept.filed_accepted accepted file progress
  case told =>
    rw [List.length_append, List.length_singleton]
    exact told_append kept.told (file ▸ reports_here progress)
  case indexed => exact { progress.indexed with }
  case types_filed => exact kept.types_filed_added progress call.name
  case callables_filed => exact kept.callables_filed_added progress call.name
  case files =>
    intro f listed
    rcases List.mem_append.mp listed with old | new
    · rw [progress.files] at old
      exact kept.older_added file progress old _ _
    · rw [List.mem_singleton.mp new]
      exact registered tree progress told call.name _

end Accept

end Kept

theorem kept_after (calls : List Added) : Kept calls (.after calls) := by
  induction calls using List.reverseRecOn with
  | nil => exact .empty
  | append_singleton calls call ih =>
    rw [Assembly.after_append]
    have count := ih.count
    cases outcome : call.outcome calls.length with
    | ok t =>
      rw [Assembly.add_accepted (count ▸ outcome)]
      exact ih.accept outcome
    | error errors =>
      rw [Assembly.add_rejected (count ▸ outcome), count]
      exact ih.reject outcome

end PhpAnalyser
