import PhpAnalyser.Proofs.Code.Finished
import PhpAnalyser.Proofs.Code.Referential
import PhpAnalyser.Proofs.Text.AsciiCase
/-!
References and the answers they keep. In a finished model each reference answers as the table of
names does, whichever were asked before, and whether or not the answer was there from the start.
-/
namespace PhpAnalyser

def TraitUse.names (u : TraitUse) : List TypeReference :=
  u.traits ++ u.precedences.flatMap (fun rule => rule.traitName :: rule.excluded) ++
    u.renames.filterMap (·.traitName)

def TypeDecl.references (d : TypeDecl) : List TypeReference :=
  d.parent.toList ++ d.interfaces ++ d.uses.flatMap TraitUse.names

def SourceFile.lateReferenceAt? (f : SourceFile) (i : Nat) : Option LateReference :=
  match f.tree.kind i with
  | .lateBound reference => some (f.lateReference i reference)
  | _ => none

def SourceFile.lateReferences (f : SourceFile) : List LateReference :=
  (List.range f.tree.size).filterMap f.lateReferenceAt?

inductive Reference where
  | type (r : TypeReference)
  | late (r : LateReference)

namespace Reference

def resolve (s : SymbolTable) : Reference → TypeRef
  | type r => r.resolve s
  | late r => r.resolve s

def settle (s : SymbolTable) : Reference → Reference
  | type r => type (r.settle s)
  | late r => late (r.settle s)

/-- What the table says, without a look at the answer that the reference keeps. -/
def meaning (s : SymbolTable) : Reference → TypeRef
  | type r => s.lookupType r.name
  | late r => r.reference.target.elim (.unknown r.reference.keyword.word) s.lookupType

/-- If the reference keeps an answer, it is the one of the table. -/
def Honest (s : SymbolTable) (r : Reference) : Prop := r.resolve s = r.meaning s

def ask (s : SymbolTable) : List Reference → List Nat → List (Option TypeRef)
  | _, [] => []
  | references, k :: requests =>
    (references[k]?).map (·.resolve s) :: ask s (references.modify k (·.settle s)) requests

variable {s : SymbolTable} {references : List Reference}

theorem meaning_settle (r : Reference) : (r.settle s).meaning s = r.meaning s := by
  cases r <;> rfl

theorem Honest.settle {r : Reference} (honest : r.Honest s) : (r.settle s).Honest s := by
  rw [Honest, meaning_settle, ← honest]
  cases r <;> rfl

theorem honest_of_name (name : String) : (type (.ofName name)).Honest s := rfl

/-- Keeping an answer makes no reference dishonest. -/
theorem honest_modify (honest : ∀ r ∈ references, r.Honest s) (k : Nat) :
    ∀ r ∈ references.modify k (·.settle s), r.Honest s := by
  intro r member
  obtain ⟨j, found⟩ := List.mem_iff_getElem?.mp member
  rw [List.getElem?_modify] at found
  obtain ⟨old, there, rfl⟩ := Option.map_eq_some_iff.mp found
  have before := honest old (List.mem_of_getElem? there)
  split
  · exact before.settle
  · exact before

theorem meaning_modify (k j : Nat) :
    ((references.modify k (·.settle s))[j]?).map (·.meaning s) =
      (references[j]?).map (·.meaning s) := by
  rw [List.getElem?_modify, Option.map_eq_map, Option.map_map]
  congr 1
  funext r
  rw [Function.comp_apply]
  split
  · exact r.meaning_settle
  · rfl

/-- Honest references answer as the table does, in any order and as often as they are asked. -/
theorem ask_eq (honest : ∀ r ∈ references, r.Honest s) (requests : List Nat) :
    ask s references requests = requests.map fun k => (references[k]?).map (·.meaning s) := by
  induction requests generalizing references with
  | nil => rfl
  | cons k requests ih =>
    have first : (references[k]?).map (·.resolve s) = (references[k]?).map (·.meaning s) :=
      Option.map_congr fun r found => honest r (List.mem_of_getElem? found)
    rw [ask, ih (honest_modify honest k), first, List.map_cons]
    simp only [meaning_modify]

end Reference

def CodeModel.references (m : CodeModel) : List Reference :=
  m.types.toList.flatMap (fun d => d.references.map .type) ++
    m.files.flatMap fun f => f.lateReferences.map .late

/-- The names of a clause have not been asked yet. -/
theorem UseAt.unasked {t : SyntaxTree} {i : Nat} {u : TraitUse} (at_ : UseAt t i u) :
    ∀ r ∈ u.names, ∃ name, r = .ofName name := by
  obtain ⟨traits, read⟩ := at_.read
  intro r listed
  rw [read] at listed
  simp only [TraitUse.names, SyntaxTree.traitUseAt, List.mem_append, List.mem_flatMap,
    List.mem_filterMap, List.mem_map] at listed
  obtain (⟨name, -, rfl⟩ | ⟨rule, ⟨c, -, rule_at⟩, inside⟩) |
    ⟨rule, ⟨c, -, rule_at⟩, inside⟩ := listed
  · exact ⟨name, rfl⟩
  · unfold SyntaxTree.precedence? at rule_at
    split at rule_at
    · cases rule_at
      rcases List.mem_cons.mp inside with same | listed
      · exact ⟨_, same⟩
      · obtain ⟨name, -, rfl⟩ := List.mem_map.mp listed
        exact ⟨name, rfl⟩
    · cases rule_at
  · unfold SyntaxTree.rename? at rule_at
    split at rule_at
    · cases rule_at
      obtain ⟨name, -, rfl⟩ := Option.map_eq_some_iff.mp inside
      exact ⟨name, rfl⟩
    · cases rule_at

theorem TypeAt.unasked {t : SyntaxTree} {i : Nat} {d : TypeDecl} (at_ : TypeAt t i d) :
    ∀ r ∈ d.references, ∃ name, r = .ofName name := by
  obtain ⟨head, is, -⟩ := at_.head
  obtain ⟨-, parent, interfaces⟩ := at_.clauses head is
  intro r listed
  rw [TypeDecl.references, parent, interfaces, List.mem_append, List.mem_append, Option.mem_toList,
    List.mem_flatMap] at listed
  obtain (inside | inside) | ⟨u, clause, inside⟩ := listed
  · obtain ⟨name, -, rfl⟩ := Option.map_eq_some_iff.mp inside
    exact ⟨name, rfl⟩
  · obtain ⟨name, -, rfl⟩ := List.mem_map.mp inside
    exact ⟨name, rfl⟩
  · exact (at_.uses u clause).unasked r inside

/-- An answer that was there from the start is for a name with the key of the type. -/
theorem SyntaxTree.late_bound_to_key {t : SyntaxTree} {i c : Nat} {name : String}
    (late : c ∈ t.lateBoundTo i name) {reference : LateBound}
    (kind : t.kind c = .lateBound reference) :
    ∃ target, reference.target = some target ∧ symbolKey name = symbolKey target := by
  have holds := (List.mem_filter.mp late).2
  rw [kind] at holds
  simp only [Bool.and_eq_true, decide_eq_true_eq, Option.any_eq_true] at holds
  obtain ⟨-, target, known, same⟩ := holds
  exact ⟨target, known, symbol_key_of_same_case same⟩

namespace Kept

variable {calls : List Added} {a : Assembly}

theorem honest_type (kept : Kept calls a) {d : TypeDecl} (member : d ∈ a.model.types)
    {r : TypeReference} (listed : r ∈ d.references) :
    (Reference.type r).Honest a.model.symbols := by
  obtain ⟨f, there, file⟩ := kept.types_filed d member
  have known := kept.files f there
  rw [← known.file] at file
  obtain ⟨name, rfl⟩ := (known.sourced.types d member file.symm).at_.unasked r listed
  exact Reference.honest_of_name name

theorem honest_late (kept : Kept calls a) {f : SourceFile} (there : f ∈ a.model.files) {i : Nat}
    {reference : LateBound} (kind : f.tree.kind i = .lateBound reference) :
    (Reference.late (f.lateReference i reference)).Honest a.model.symbols := by
  rw [Reference.Honest, Reference.resolve, Reference.meaning, LateReference.resolve,
    SourceFile.lateReference]
  cases primed : f.primed.lookup i with
  | none => rfl
  | some id =>
    obtain ⟨d, member, rfl, -, late⟩ :=
      (kept.files f there).sourced.primed (i, id) (mem_of_lookup primed)
    obtain ⟨target, known, key⟩ := SyntaxTree.late_bound_to_key late kind
    have found := kept.indexed.type_name member
    rw [SymbolTable.type?, key] at found
    rw [Option.map_some, Option.getD_some, known, Option.elim_some, SymbolTable.lookupType,
      SymbolTable.type?, found]

end Kept

namespace Assembly

theorem honest_after (calls : List Added) :
    ∀ r ∈ (finished calls).references, r.Honest (finished calls).symbols := by
  have kept := kept_after calls
  intro r member
  rcases List.mem_append.mp member with inside | inside
  · obtain ⟨d, declared, inside⟩ := List.mem_flatMap.mp inside
    obtain ⟨name, listed, rfl⟩ := List.mem_map.mp inside
    obtain ⟨registered, there, rfl⟩ := mem_finished (Array.mem_toList_iff.mp declared)
    exact kept.honest_type there listed
  · obtain ⟨f, there, inside⟩ := List.mem_flatMap.mp inside
    obtain ⟨late, listed, rfl⟩ := List.mem_map.mp inside
    obtain ⟨i, -, at_⟩ := List.mem_filterMap.mp listed
    unfold SourceFile.lateReferenceAt? at at_
    split at at_
    next reference kind =>
      cases at_
      exact kept.honest_late there kind
    next => cases at_

/-- However often and in whatever order the references of a finished model are asked, each one
answers what the table of names says of its name or target, and one without a target answers with
its keyword. -/
theorem references_settled (calls : List Added) (requests : List Nat) :
    Reference.ask (finished calls).symbols (finished calls).references requests =
      requests.map fun k =>
        ((finished calls).references[k]?).map (·.meaning (finished calls).symbols) :=
  Reference.ask_eq (honest_after calls) requests

end Assembly

end PhpAnalyser
