import PhpAnalyser.Proofs.Code.Referential
/-!
What the report of a collision is about can be read off its text, because no name of a type has a
blank in it.
-/
namespace PhpAnalyser

theorem parse_clean {source : String} {file : Nat} {t : SyntaxTree}
    (accepted : parse source file = .ok t) (i : Nat) : (t.kind i).Clean := by
  obtain ⟨s, nodes, complete, none, -⟩ := complete_of_accepted accepted
  rw [SyntaxTree.kind, SyntaxTree.node?, nodes]
  cases found : s.nodes[i]? with
  | none => trivial
  | some n => exact complete.worded none i n found

theorem Added.outcome_clean {call : Added} {file : Nat} {t : SyntaxTree}
    (accepted : call.outcome file = .ok t) (i : Nat) : (t.kind i).Clean := by
  obtain ⟨source, parsed⟩ := Added.parse_of_outcome accepted
  exact parse_clean parsed i

theorem clean_of_head {kind : NodeKind} {head : Registration.TypeHead}
    (is : Registration.head? kind = some head) (clean : kind.Clean) : Clean head.name := by
  cases kind <;> cases is <;> exact clean

/-- The name of a type has no blank in it. -/
theorem Kept.type_solid {calls : List Added} {a : Assembly} (kept : Kept calls a) {d : TypeDecl}
    (member : d ∈ a.model.types) : Solid d.qualifiedName := by
  obtain ⟨f, there, -, sourced⟩ := kept.file_of_type member
  obtain ⟨call, t, read, marked, -⟩ := kept.read_as there
  obtain ⟨head, is, -, named⟩ := sourced.at_.head
  rw [named]
  refine (clean_of_head is ?_).solid
  rw [marked.kind]
  exact Added.outcome_clean read d.node

/-- Where the last blank of a text is, is told by what stands behind it. -/
theorem append_blank_inj {before before' last last' : List Char} (here : ' ' ∉ last)
    (there : ' ' ∉ last') (same : before ++ ' ' :: last = before' ++ ' ' :: last') :
    before = before' ∧ last = last' := by
  rcases List.append_eq_append_iff.mp same with ⟨more, rfl, split⟩ | ⟨more, rfl, split⟩
  · cases more with
    | nil => simp_all
    | cons c more =>
      have inside : ' ' ∈ last := by simp_all
      exact absurd inside here
  · cases more with
    | nil => simp_all
    | cons c more =>
      have inside : ' ' ∈ last' := by simp_all
      exact absurd inside there

namespace Diagnostic

variable {method method' name name' : String} {file file' : Nat} {span span' : Span}

def collisionWords : String :=
  " has not been applied, because there are collisions with other trait methods on"

theorem collision_chars (method name : String) (file : Nat) (span : Span) :
    (collision method name file span).message.toList =
      ("Trait method ".toList ++ method.toList ++ collisionWords.toList) ++
        ' ' :: (name.toList ++ ['.']) := by
  have words :
      " has not been applied, because there are collisions with other trait methods on ".toList =
        collisionWords.toList ++ [' '] := by decide
  simp only [collision, String.toList_append, words, List.append_assoc, List.singleton_append]
  rfl

/-- The report of a collision tells the method and the type. -/
theorem collision_inj (solid : Solid name) (solid' : Solid name')
    (same : collision method name file span = collision method' name' file' span') :
    method = method' ∧ name = name' := by
  have chars := congrArg (fun d : Diagnostic => d.message.toList) same
  rw [collision_chars, collision_chars] at chars
  have ends {text : String} (solid : Solid text) : ' ' ∉ text.toList ++ ['.'] := by
    rw [Solid] at solid
    simpa using solid
  obtain ⟨front, back⟩ := append_blank_inj (ends solid) (ends solid') chars
  rw [List.append_assoc, List.append_assoc] at front
  have methods := List.append_cancel_right (List.append_cancel_left front)
  have names := List.append_cancel_right back
  exact ⟨String.toList_inj.mp methods, String.toList_inj.mp names⟩

def Names (d : Diagnostic) (t : TypeDecl) (method : String) : Prop :=
  ∃ span, d = .collision method t.qualifiedName t.file span

end Diagnostic

/-- A report is about one method of one type. -/
theorem Kept.names_one {calls : List Added} {a : Assembly} (kept : Kept calls a)
    {d : Diagnostic} {t u : TypeDecl} {method method' : String} (first : t ∈ a.model.types)
    (second : u ∈ a.model.types) (names : d.Names t method) (names' : d.Names u method') :
    t = u ∧ method = method' := by
  obtain ⟨span, rfl⟩ := names
  obtain ⟨span', same⟩ := names'
  obtain ⟨methods, name⟩ :=
    Diagnostic.collision_inj (kept.type_solid first) (kept.type_solid second) same
  exact ⟨kept.referential.type_keys t first u second (congrArg symbolKey name), methods⟩

end PhpAnalyser
