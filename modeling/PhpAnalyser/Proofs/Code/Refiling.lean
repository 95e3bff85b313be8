import PhpAnalyser.Proofs.Code.Renumbering
import PhpAnalyser.Proofs.Code.Survey
import PhpAnalyser.Proofs.Code.Total
/-!
Files under other numbers. Nothing that is registered or composed depends on the number of a file,
so a file that cannot be read leaves nothing behind but its errors and the number it took.
-/
namespace PhpAnalyser

variable (σ : Nat → Nat)

def SyntaxTree.refiled (t : SyntaxTree) : SyntaxTree := { t with file := σ t.file }

def SourceFile.refiled (f : SourceFile) : SourceFile :=
  { f with id := σ f.id, tree := f.tree.refiled σ }

def TypeDecl.refiled (d : TypeDecl) : TypeDecl := { d with file := σ d.file }

def Callable.refiled (c : Callable) : Callable := { c with file := σ c.file }

def Diagnostic.refiled (d : Diagnostic) : Diagnostic := { d with file := σ d.file }

def CodeModel.refiled (m : CodeModel) : CodeModel where
  files := m.files.map (·.refiled σ)
  packages := m.packages
  types := m.types.map (·.refiled σ)
  callables := m.callables.map (·.refiled σ)
  properties := m.properties
  symbols := m.symbols

theorem SyntaxTree.refiled_same_text (t : SyntaxTree) : t.SameText (t.refiled σ) :=
  ⟨rfl, rfl, rfl⟩

theorem SyntaxTree.unstack_refiled (t : SyntaxTree) (fuel : Nat) (stack : List Nat) :
    (t.refiled σ).unstack fuel stack = t.unstack fuel stack := by
  induction fuel generalizing stack with
  | zero => rfl
  | succ fuel ih =>
    cases stack with
    | nil => rfl
    | cons i stack => exact congrArg (i :: ·) (ih _)

theorem SyntaxTree.late_bound_to_refiled (t : SyntaxTree) (i : Nat) (name : String) :
    (t.refiled σ).lateBoundTo i name = t.lateBoundTo i name := by
  rw [lateBoundTo, descendants, unstack_refiled]
  rfl

namespace Registration

def refiled (r : Registration) : Registration where
  model := r.model.refiled σ
  diagnostics := r.diagnostics.map (·.refiled σ)
  tree := r.tree.refiled σ
  primed := r.primed

def refiledEntry (entry : Registration × TypeDecl) : Registration × TypeDecl :=
  (entry.1.refiled σ, entry.2.refiled σ)

variable (r : Registration)

@[simp] theorem refiled_callables_size :
    (r.refiled σ).model.callables.size = r.model.callables.size := Array.size_map

@[simp] theorem refiled_types_size : (r.refiled σ).model.types.size = r.model.types.size :=
  Array.size_map

theorem with_package_refiled (space : String) :
    (r.refiled σ).withPackage space = ((r.withPackage space).1.refiled σ, (r.withPackage space).2) := by
  unfold withPackage
  dsimp only [refiled, CodeModel.refiled]
  split <;> rfl

theorem duplicate_refiled (what name : String) (i : Nat) :
    (r.refiled σ).duplicate what name i = (r.duplicate what name i).refiled σ := by
  unfold duplicate refiled
  rw [List.map_append]
  rfl

theorem callable_refiled (kind : CallableKind) (name qualifiedName : String) (i : Nat)
    (modifiers : Modifiers) :
    (r.refiled σ).callable kind name qualifiedName i modifiers =
      (r.callable kind name qualifiedName i modifiers).refiled σ := by
  unfold callable
  rw [refiled_callables_size]
  rfl

theorem add_method_refiled (decl : TypeDecl) (i : Nat) (name : String) (modifiers : Modifiers) :
    (r.refiled σ).addMethod (decl.refiled σ) i name modifiers =
      refiledEntry σ (r.addMethod decl i name modifiers) := by
  unfold addMethod
  rw [callable_refiled, refiled_callables_size]
  simp [refiledEntry, refiled, CodeModel.refiled, TypeDecl.refiled]

theorem add_property_refiled (modifiers : Modifiers) (entry : Registration × TypeDecl) (i : Nat) :
    addProperty modifiers (refiledEntry σ entry) i =
      refiledEntry σ (addProperty modifiers entry i) := by
  obtain ⟨r, decl⟩ := entry
  have kind : (refiledEntry σ (r, decl)).1.tree.kind i = r.tree.kind i := rfl
  simp only [addProperty, kind]
  split <;> rfl

theorem add_member_refiled (entry : Registration × TypeDecl) (i : Nat) :
    addMember (refiledEntry σ entry) i = refiledEntry σ (addMember entry i) := by
  obtain ⟨r, decl⟩ := entry
  have kind : (refiledEntry σ (r, decl)).1.tree.kind i = r.tree.kind i := rfl
  have children : (refiledEntry σ (r, decl)).1.tree.children i = r.tree.children i := rfl
  simp only [addMember, kind, children]
  split
  · exact add_method_refiled σ r decl i _ _
  · exact List.foldl_hom (refiledEntry σ) fun entry i => add_property_refiled σ _ entry i
  · rfl
  · rfl
  · rfl

theorem add_members_refiled (entry : Registration × TypeDecl) (members : List Nat) :
    members.foldl addMember (refiledEntry σ entry) =
      refiledEntry σ (members.foldl addMember entry) :=
  List.foldl_hom (refiledEntry σ) fun entry i => add_member_refiled σ entry i

theorem new_type_refiled (head : TypeHead) (package i : Nat) :
    (r.refiled σ).newType head package i = (r.newType head package i).refiled σ := by
  unfold newType
  rw [refiled_types_size]
  rfl

theorem add_type_refiled (space : String) (i : Nat) (head : TypeHead) :
    (r.refiled σ).addType space i head = (r.addType space i head).refiled σ := by
  have taken : (r.refiled σ).model.symbols = r.model.symbols := rfl
  unfold addType
  rw [taken, refiled_types_size]
  split
  · exact duplicate_refiled σ r "Type" head.name i
  · dsimp only
    generalize named : ({ r with model := { r.model with
      symbols := r.model.symbols.addType head.name r.model.types.size } } : Registration) = n
    have named' : ({ r.refiled σ with model := { (r.refiled σ).model with
        symbols := r.model.symbols.addType head.name r.model.types.size } } : Registration) =
          n.refiled σ := by
      rw [← named]
      rfl
    rw [named', with_package_refiled]
    obtain ⟨placed, package⟩ := n.withPackage space
    have members : ((placed.refiled σ).tree.children i).foldl addMember
        (placed.refiled σ, (placed.refiled σ).newType head package i) =
          refiledEntry σ ((placed.tree.children i).foldl addMember
            (placed, placed.newType head package i)) := by
      rw [new_type_refiled]
      exact add_members_refiled σ (placed, placed.newType head package i) _
    dsimp only
    rw [members]
    simp only [refiledEntry, refiled, CodeModel.refiled, Array.map_push,
      SyntaxTree.late_bound_to_refiled]
    rfl

theorem add_function_refiled (space : String) (i : Nat) (name : String) :
    (r.refiled σ).addFunction space i name = (r.addFunction space i name).refiled σ := by
  have taken : (r.refiled σ).model.symbols = r.model.symbols := rfl
  unfold addFunction
  rw [taken, refiled_callables_size]
  split
  · exact duplicate_refiled σ r "Function" name i
  · dsimp only
    generalize named : ({ r with model := { r.model with
      symbols := r.model.symbols.addFunction name r.model.callables.size } } : Registration) = n
    have named' : ({ r.refiled σ with model := { (r.refiled σ).model with
        symbols := r.model.symbols.addFunction name r.model.callables.size } } : Registration) =
          n.refiled σ := by
      rw [← named]
      rfl
    rw [named', with_package_refiled]
    obtain ⟨placed, package⟩ := n.withPackage space
    dsimp only
    rw [callable_refiled]
    simp only [refiled, CodeModel.refiled, Array.map_push]

theorem add_refiled (entry : String × Nat) :
    (r.refiled σ).add entry = (r.add entry).refiled σ := by
  have kind : (r.refiled σ).tree.kind entry.2 = r.tree.kind entry.2 := rfl
  unfold add
  rw [kind]
  dsimp only
  split
  · exact add_function_refiled σ r entry.1 entry.2 _
  · exact add_type_refiled σ r entry.1 entry.2 _
  · rfl

theorem add_all_refiled (entries : List (String × Nat)) :
    entries.foldl add (r.refiled σ) = (entries.foldl add r).refiled σ :=
  List.foldl_hom (refiled σ) fun r entry => add_refiled σ r entry

end Registration

theorem CodeModel.register_refiled (m : CodeModel) (name : String) (t : SyntaxTree) :
    (m.refiled σ).register name (t.refiled σ) =
      ((m.register name t).1.refiled σ, (m.register name t).2.map (·.refiled σ)) := by
  have listed : (t.refiled σ).declarations "" (t.refiled σ).root = t.declarations "" t.root :=
    (t.refiled_same_text σ).declarations t.root ""
  have added : (t.declarations "" t.root).foldl Registration.add ⟨m.refiled σ, [], t.refiled σ, []⟩ =
      ((t.declarations "" t.root).foldl Registration.add ⟨m, [], t, []⟩).refiled σ :=
    Registration.add_all_refiled σ ⟨m, [], t, []⟩ _
  unfold register
  rw [listed, added]
  simp only [Registration.refiled, refiled, List.map_append]
  rfl

namespace CodeModel

variable (m : CodeModel)

theorem refiled_type (id : Nat) : (m.refiled σ).type? id = (m.type? id).map (·.refiled σ) :=
  Array.getElem?_map

theorem refiled_callable (id : Nat) :
    (m.refiled σ).callable? id = (m.callable? id).map (·.refiled σ) :=
  Array.getElem?_map

theorem refiled_resolve (r : TypeReference) :
    (m.refiled σ).resolve r = (m.resolve r).map (·.refiled σ) := by
  rw [resolve, resolve, Option.map_bind]
  exact congrArg _ (funext fun id => refiled_type σ m id)

theorem refiled_used_traits (t : TypeDecl) :
    (m.refiled σ).usedTraits (t.refiled σ) = m.usedTraits t := by
  have same : (m.refiled σ).usedTrait? = m.usedTrait? := by
    funext r
    unfold usedTrait?
    rw [refiled_resolve]
    cases m.resolve r <;> rfl
  rw [usedTraits, usedTraits, same]
  rfl

theorem refiled_excluded (t : TypeDecl) (key : String) :
    (m.refiled σ).excludedTypes (t.refiled σ) key = m.excludedTypes t key := by
  rw [excludedTypes, excludedTypes]
  refine congrArg₂ _ (funext fun rule => ?_) rfl
  rw [List.map_filterMap, List.map_filterMap]
  refine congrArg₂ _ (funext fun r => ?_) rfl
  rw [refiled_resolve, Option.map_map]
  rfl

theorem refiled_declared_table (t : TypeDecl) :
    (m.refiled σ).declaredTable (t.refiled σ) = m.declaredTable t := by
  have methods : (m.refiled σ).methodsOf (t.refiled σ) = (m.methodsOf t).map (·.refiled σ) := by
    rw [methodsOf, methodsOf, List.map_filterMap]
    exact congrArg₂ _ (funext fun id => refiled_callable σ m id) rfl
  rw [declaredTable, declaredTable, methods, List.foldl_map]
  rfl

theorem refiled_choose (excluded : List Nat) (offers : List Offer) :
    (m.refiled σ).choose excluded offers = m.choose excluded offers := by
  have same : (m.refiled σ).isAbstractOffer = m.isAbstractOffer := by
    funext offer
    rw [isAbstractOffer, isAbstractOffer, refiled_callable, Option.any_map]
    rfl
  rw [choose, choose, same]

theorem refiled_choices (t : TypeDecl) (offers : Offers) :
    (m.refiled σ).choices (t.refiled σ) offers = m.choices t offers := by
  unfold choices
  simp only [refiled_declared_table, refiled_excluded, refiled_choose]

theorem refiled_apply_rename (offers : Offers) :
    (m.refiled σ).applyRename offers = m.applyRename offers := by
  have same : (m.refiled σ).ruleOffer? offers = m.ruleOffer? offers := by
    funext rule
    unfold ruleOffer?
    simp only [refiled_resolve, Option.map_map]
    rfl
  funext table rule
  unfold applyRename
  rw [same]

section Numbers

variable {σ} (apart : Function.Injective σ)
include apart

theorem refiled_file (k : Nat) : (m.refiled σ).file? (σ k) = (m.file? k).map (·.refiled σ) := by
  have same : (fun f : SourceFile => decide (f.id = σ k)) ∘ SourceFile.refiled σ =
      fun f => decide (f.id = k) := by
    funext f
    simp [SourceFile.refiled, apart.eq_iff]
  rw [file?, file?, refiled, List.find?_map]
  exact congrArg (fun p => (m.files.find? p).map (·.refiled σ)) same

theorem refiled_collision (t : TypeDecl) (offers : List Offer) :
    (m.refiled σ).collisionAt (t.refiled σ) offers =
      (m.collisionAt t offers).map (·.refiled σ) := by
  have tree : (m.refiled σ).tree? (σ t.file) = (m.tree? t.file).map (·.refiled σ) := by
    rw [tree?, tree?, refiled_file m apart, Option.map_map, Option.map_map]
    rfl
  have file : (t.refiled σ).file = σ t.file := rfl
  have uses : (t.refiled σ).uses = t.uses := rfl
  unfold collisionAt
  rw [file, uses, tree]
  cases offers.head? with
  | none => rfl
  | some first =>
    cases offers.getLast? with
    | none => rfl
    | some last =>
      cases known : t.uses[last.clause]? with
      | none => simp [known]
      | some clause =>
        cases m.tree? t.file with
        | none => simp [known]; rfl
        | some tree => simp [known]; rfl

theorem refiled_table (t : TypeDecl) (offers : Offers) :
    (m.refiled σ).tableOf (t.refiled σ) offers =
      (m.tableOf t offers).mapError (List.map (·.refiled σ)) := by
  unfold tableOf
  rw [refiled_choices, refiled_declared_table, refiled_apply_rename]
  dsimp only
  split
  · rfl
  · refine congrArg Except.error (Eq.trans ?_ List.map_filterMap.symm)
    exact congrArg₂ _ (funext fun entry => refiled_collision m apart t entry.1) rfl

end Numbers

end CodeModel

namespace Composing

def refiled (s : Composing) : Composing := { s with collisions := s.collisions.map (·.refiled σ) }

theorem fail_refiled (s : Composing) (id : Nat) (found : List Diagnostic) :
    (s.fail id found).refiled σ = (s.refiled σ).fail id (found.map (·.refiled σ)) := by
  rw [refiled, fail, fail, List.map_append]
  rfl

theorem refiled_fallback (m : CodeModel) (id : Nat) : fallback (m.refiled σ) id = fallback m id := by
  rw [fallback, fallback, CodeModel.refiled_type]
  cases m.type? id with
  | none => rfl
  | some t => exact CodeModel.refiled_declared_table σ m t

variable {σ} {m : CodeModel}

theorem found_refiled {id : Nat} {t : TypeDecl} (found : m.type? id = some t) :
    (m.refiled σ).type? id = some (t.refiled σ) := by
  rw [CodeModel.refiled_type, found]
  rfl

mutual

theorem Runs.refiled (apart : Function.Injective σ) {s s' : Composing} {id : Nat}
    {table : Option MethodTable} :
    Runs m s id table s' → Runs (m.refiled σ) (s.refiled σ) id table (s'.refiled σ)
  | .composed known => .composed known
  | .failed known => .failed known
  | .unknown pending missing => .unknown pending (by rw [CodeModel.refiled_type, missing]; rfl)
  | .again (t := t) pending found active => by
    rw [← CodeModel.refiled_declared_table σ m t]
    exact .again pending (found_refiled found) active
  | .settles (t := t) pending found fresh gathers ok => by
    have gathers' := gathers.refiled apart
    rw [← CodeModel.refiled_used_traits σ m t] at gathers'
    refine .settles (s := s.refiled σ) pending (found_refiled found) fresh gathers' ?_
    rw [CodeModel.refiled_table m apart, ok]
    rfl
  | .collides (t := t) pending found fresh gathers error => by
    have gathers' := gathers.refiled apart
    rw [← CodeModel.refiled_used_traits σ m t] at gathers'
    rw [fail_refiled]
    refine .collides (s := s.refiled σ) pending (found_refiled found) fresh gathers' ?_
    rw [CodeModel.refiled_table m apart, error]
    rfl

theorem Gathers.refiled (apart : Function.Injective σ) {s s' : Composing} {offers offers' : Offers}
    {used : List (Nat × Nat)} :
    Gathers m s offers used offers' s' →
      Gathers (m.refiled σ) (s.refiled σ) offers used offers' (s'.refiled σ)
  | .nil => .nil
  | .cons head tail => by
    refine .cons (head.refiled apart) ?_
    rw [refiled_fallback]
    exact tail.refiled apart

end

theorem RunsEach.refiled (apart : Function.Injective σ) {s s' : Composing} {ids : List Nat}
    (each : RunsEach m s ids s') :
    RunsEach (m.refiled σ) (s.refiled σ) ids (s'.refiled σ) := by
  induction each with
  | nil => exact .nil
  | cons head _ ih => exact .cons (head.refiled apart) ih

theorem run_all_refiled (apart : Function.Injective σ) (m : CodeModel) :
    runAll (m.refiled σ) ((m.refiled σ).types.size + 1) =
      (runAll m (m.types.size + 1)).refiled σ := by
  have start : start (m.refiled σ) = (start m).refiled σ := by
    simp [Composing.start, CodeModel.refiled, Composing.refiled]
  have ids : (m.refiled σ).types.toList.map (·.id) = m.types.toList.map (·.id) := by
    simp [CodeModel.refiled, TypeDecl.refiled]
  have runs := (run_all_runs (m := m) (Nat.lt_succ_self _)).refiled apart
  have runs' := run_all_runs (m := m.refiled σ) (Nat.lt_succ_self _)
  rw [ids, start] at runs'
  exact runs'.unique runs

end Composing

theorem CodeModel.compose_all_refiled {σ : Nat → Nat} (apart : Function.Injective σ) (m : CodeModel) :
    (m.refiled σ).composeAll =
      (m.composeAll.1.refiled σ, m.composeAll.2.map (·.refiled σ)) := by
  rw [compose_all_eq, compose_all_eq, Composing.run_all_refiled apart]
  simp only [refiled, Array.map_map]
  rfl

theorem Added.outcome_refiled (call : Added) (file : Nat) :
    call.outcome (σ file) = (call.outcome file).map (·.refiled σ) := by
  rw [call.outcome_renumbered, call.outcome_renumbered file]
  cases call.outcome 0 <;> rfl

def raise (k file : Nat) : Nat := if file < k then file else file + 1

theorem raise_injective (k : Nat) : Function.Injective (raise k) := by
  intro i j same
  unfold raise at same
  split at same <;> split at same <;> omega

theorem raise_below {k file : Nat} (low : file < k) : raise k file = file := if_pos low

theorem raise_above {k file : Nat} (high : k ≤ file) : raise k file = file + 1 :=
  if_neg (Nat.not_lt.mpr high)

/-- The assemblies of two runs, one of which has an unreadable file in the place `k`. -/
structure Spared (k : Nat) (said reported : List Diagnostic) (name : String) (a b : Assembly) :
    Prop where
  model : b.model = a.model.refiled (raise k)
  diagnostics : ∃ later, a.diagnostics = said ++ later ∧
    b.diagnostics = said ++ reported ++ later.map (·.refiled (raise k))
  names : ∃ before behind, before.length = k ∧ a.fileNames = before ++ behind ∧
    b.fileNames = before ++ name :: behind

namespace Spared

variable {k : Nat} {said reported : List Diagnostic} {name : String} {a b : Assembly}

theorem next (spared : Spared k said reported name a b) :
    b.fileNames.length = raise k a.fileNames.length := by
  obtain ⟨before, behind, rfl, names, names'⟩ := spared.names
  rw [names, names', raise_above (by simp)]
  simp only [List.length_append, List.length_cons]
  omega

theorem add (spared : Spared k said reported name a b) (call : Added) :
    Spared k said reported name (a.add call).1 (b.add call).1 := by
  have outcome := call.outcome_refiled (raise k) a.fileNames.length
  rw [← spared.next] at outcome
  obtain ⟨later, told, told'⟩ := spared.diagnostics
  obtain ⟨before, behind, count, names, names'⟩ := spared.names
  cases read : call.outcome a.fileNames.length with
  | error errors =>
    rw [read] at outcome
    rw [Assembly.add_rejected read, Assembly.add_rejected outcome]
    refine ⟨spared.model, ⟨later ++ errors.map (.ofParseError a.fileNames.length), ?_, ?_⟩,
      ⟨before, behind ++ [call.name], count, ?_, ?_⟩⟩
    · simp [Assembly.reject, told]
    · simp [Assembly.reject, told', spared.next, Diagnostic.refiled, Diagnostic.ofParseError]
    · simp [Assembly.reject, names]
    · simp [Assembly.reject, names']
  | ok t =>
    rw [read] at outcome
    rw [Assembly.add_accepted read, Assembly.add_accepted outcome, spared.model,
      CodeModel.register_refiled]
    refine ⟨rfl, ⟨later ++ (a.model.register call.name t).2, ?_, ?_⟩,
      ⟨before, behind ++ [call.name], count, ?_, ?_⟩⟩
    · simp [told]
    · simp [told']
    · simp [names]
    · simp [names']

theorem finish (spared : Spared k said reported name a b) :
    Spared k said reported name a.finish b.finish := by
  obtain ⟨later, told, told'⟩ := spared.diagnostics
  have composed := CodeModel.compose_all_refiled (raise_injective k) a.model
  rw [← spared.model] at composed
  unfold Assembly.finish
  rw [composed]
  refine ⟨rfl, ⟨later ++ a.model.composeAll.2, ?_, ?_⟩, spared.names⟩
  · simp [told]
  · simp [told']

end Spared

/-- Numbers that stay for the files of a model leave the model as it is. -/
theorem Kept.refiled {calls : List Added} {a : Assembly} (kept : Kept calls a) {σ : Nat → Nat}
    (stays : ∀ file < calls.length, σ file = file) : a.model.refiled σ = a.model := by
  have file {f : SourceFile} (member : f ∈ a.model.files) : σ f.id = f.id :=
    stays _ (kept.filed.within f member)
  have files : a.model.files.map (·.refiled σ) = a.model.files := by
    refine (List.map_congr_left fun f member => ?_).trans (List.map_id _)
    have tree := file member
    rw [← (kept.files f member).file] at tree
    rw [SourceFile.refiled, SyntaxTree.refiled, file member, tree]
    rfl
  have types : a.model.types.map (·.refiled σ) = a.model.types := by
    refine (Array.map_congr_left fun d member => ?_).trans (Array.map_id _)
    obtain ⟨f, there, same⟩ := kept.types_filed d member
    rw [TypeDecl.refiled, ← same, file there, same]
    rfl
  have callables : a.model.callables.map (·.refiled σ) = a.model.callables := by
    refine (Array.map_congr_left fun c member => ?_).trans (Array.map_id _)
    obtain ⟨f, there, same⟩ := kept.callables_filed c member
    rw [Callable.refiled, ← same, file there, same]
    rfl
  rw [CodeModel.refiled, files, types, callables]

namespace Assembly

theorem spared_after (before behind : List Added) (call : Added) {errors : List ParseError}
    (rejected : call.outcome before.length = .error errors) :
    Spared before.length (after before).diagnostics (errors.map (.ofParseError before.length))
      call.name (after (before ++ behind)) (after (before ++ call :: behind)) := by
  have kept := kept_after before
  induction behind using List.reverseRecOn with
  | nil =>
    rw [List.append_nil, after_append, add_rejected (kept.count ▸ rejected), kept.count]
    have stays := kept.refiled fun file low => raise_below low
    exact ⟨stays.symm, ⟨[], by simp, by simp [reject]⟩, ⟨_, [], kept.count, by simp, rfl⟩⟩
  | append_singleton behind next ih =>
    have shorter := after_append (before ++ behind) next
    have longer := after_append (before ++ call :: behind) next
    rw [List.append_assoc] at shorter longer
    rw [shorter, ← List.cons_append, longer]
    exact ih.add next

/-- A file that cannot be read leaves its errors and nothing else: but for the numbers of the files
behind it, the finished model and all other reports are those of the run without it. -/
theorem rejected_leaves_errors (before behind : List Added) (call : Added)
    (rejected : ((after before).add call).2 = false) :
    finished (before ++ call :: behind) =
        (finished (before ++ behind)).refiled (raise before.length) ∧
      ∃ reported later, reported ≠ [] ∧
        (∀ d ∈ reported, d.isError = true ∧ d.file = before.length) ∧
        (after (before ++ behind)).finish.diagnostics = (after before).diagnostics ++ later ∧
        (after (before ++ call :: behind)).finish.diagnostics =
          (after before).diagnostics ++ reported ++
            later.map (·.refiled (raise before.length)) := by
  have count := (kept_after before).count
  cases read : call.outcome before.length with
  | ok t =>
    rw [add_accepted (count ▸ read)] at rejected
    cases rejected
  | error errors =>
    have spared := (spared_after before behind call read).finish
    obtain ⟨later, told, told'⟩ := spared.diagnostics
    refine ⟨spared.model, _, later, ?_, ?_, told, told'⟩
    · simpa using Added.outcome_some read
    · intro d listed
      obtain ⟨e, -, rfl⟩ := List.mem_map.mp listed
      exact ⟨rfl, rfl⟩

def brokenFile : Added := .source "broken.php" "<?php class B \x7b"

theorem rejected_leaves_errors_between :
    ((after [traitFile]).add brokenFile).2 = false ∧
      finished [traitFile, brokenFile, classFile] =
        (finished [traitFile, classFile]).refiled (raise 1) :=
  ⟨by decide +kernel,
    (rejected_leaves_errors [traitFile] [classFile] brokenFile (by decide +kernel)).1⟩

end Assembly

end PhpAnalyser
