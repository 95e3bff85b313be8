import PhpAnalyser.Proofs.Depth.Judgement
import PhpAnalyser.Proofs.Production.Unit
/-!
How high the trees of whole files are: six nodes for each level of nesting.
-/
namespace PhpAnalyser

structure Nested.Limits (t : SyntaxTree) (top height : Nat) (g : Nested) : Prop where
  expression : ∀ power given, PhpAnalyser.Limits t top given (g.expression power) (Low t height)
  statement : ∀ given, PhpAnalyser.Limits t top given g.statement fun id => AllLow t height id.toList

namespace Limits

variable {t : SyntaxTree} {top : Nat} {given : Prop}

theorem readers {height : Nat} {g : Nested} (inner : g.Limits t top height)
    (room : height + 6 ≤ top) : (judgement t room).Inner g g :=
  ⟨fun power => inner.expression power _, inner.statement _⟩

/-- Each level of nesting adds as much. -/
theorem nestedAt (levels : Nat) (room : 6 * levels ≤ top) :
    (Parser.nestedAt levels).Limits t top (6 * levels) := by
  induction levels with
  | zero => exact ⟨fun _ _ => nested stuck, fun _ => nested stuck⟩
  | succ levels ih =>
    have inner := readers (ih (by omega)) room
    exact ⟨fun power _ => nested (of_said room (.binary inner power)),
      fun _ => nested (of_said room (.statement inner))⟩

theorem imports (room : 6 ≤ top) : Limits t top given Parser.imports (AllLow t 1) := by
  have room : 0 + 6 ≤ top := by omega
  have nameless : (judgement t room).Nameless :=
    ⟨fun _ => trivial, fun _ => modify fun _ => rfl⟩
  exact of_said room (.imports nameless)

theorem packageName (room : 6 ≤ top) : Limits t top given Parser.packageName fun _ => True :=
  of_said (show 0 + 6 ≤ top by omega) .packageName

theorem hull (room : 6 ≤ top) (ids : List Nat) :
    Limits t top given (Parser.hull ids) fun _ => True :=
  of_said (show 0 + 6 ≤ top by omega) (.hull ids)

/-- A node that is low, and lower still unless it is a namespace. -/
def LowItem (t : SyntaxTree) (height i : Nat) : Prop :=
  Low t (height + 1) i ∧ ((t.kind i).isNamespace ∨ Low t height i)

section Namespace

variable {height : Nat} {item : Parser (List Nat)} (fits : 6 ≤ top) (room : height + 1 ≤ top)
  (each : ∀ known, Limits t top known item fun ids => ∀ i ∈ ids, LowItem t height i)
include each

theorem namespaceBody (start : Span) :
    Limits t top given (Parser.namespaceBody item start) fun ids =>
      ∀ i ∈ ids, LowItem t height i := by
  refine .then_ (eat _) fun _ => .ite (fun _ => ?_) fun _ => ?_
  · exact .bind (recovering (each _)) fun _ => .then_ (discard (expect _ _)) fun _ => pure And.right
  · exact .then_ (discard (finishStatement start)) fun _ => recovering (each _)

include fits room in
/-- However many namespaces stand in one another, all but the innermost prolong one another. -/
theorem namespaceDeclaration :
    Limits t top given (Parser.namespaceDeclaration item) (LowItem t height) := by
  refine .then_ advance fun start => .then_ (packageName fits) fun package =>
    .then_ (modify fun _ => rfl) fun _ => .bind (namespaceBody each _) fun ids =>
      .then_ (spanFrom _) fun span => ?_
  refine (push room (fun known i kind children => ?_) span).mono fun i made => ?_
  · refine .node (fun c child _ => ?_) fun c child stands => ?_
    · rw [children] at child
      exact (known.2 c child).1
    · rw [children] at child
      refine (known.2 c child).2.resolve_left fun same => stands (.inr (.inr ⟨?_, same⟩))
      rw [kind]
      rfl
  · refine ⟨made.2, .inl ?_⟩
    rw [made.1]
    rfl

end Namespace

theorem topStatement {levels : Nat} (some_ : 0 < levels) (fits : Parser.maxNesting ≤ levels)
    (room : 6 * levels + 1 ≤ top) (fuel : Nat) :
    Limits t top given (Parser.topStatement fuel) fun ids => ∀ i ∈ ids, LowItem t (6 * levels) i := by
  have items {ids : List Nat} {low : Nat} (le : low ≤ 6 * levels) (all : AllLow t low ids) :
      ∀ i ∈ ids, LowItem t (6 * levels) i := fun i member =>
    ⟨(all i member).mono (by omega), .inr ((all i member).mono le)⟩
  induction fuel generalizing given with
  | zero => exact stuck
  | succ fuel ih =>
    refine .then_ current fun _ => .then_ (ahead 1) fun _ => .ite (fun _ => ?_) fun _ =>
      .ite (fun _ => ?_) fun _ => ?_
    · exact .bind (namespaceDeclaration (by omega) room fun _ => ih) fun _ => pure fun known => by
        simpa using known.2
    · exact (imports (by omega)).mono fun _ all => items (by omega) all
    · exact .bind ((nestedAt Parser.maxNesting (by omega)).statement given) fun _ =>
        pure fun known => items (by omega) known.2

theorem compilationUnit :
    Limits t (6 * Parser.maxNesting + 2) given Parser.compilationUnit fun _ => True := by
  have item (known : Prop) : Limits t (6 * Parser.maxNesting + 2) known
      (do Parser.topStatement (← Parser.remaining)) fun ids =>
        ∀ i ∈ ids, LowItem t (6 * Parser.maxNesting) i :=
    .then_ remaining fun fuel => topStatement (by decide) (Nat.le_refl _) (by omega) fuel
  refine .bind (recovering (item _)) fun ids => .then_ (hull (by decide) ids) fun span => ?_
  exact (pushAbove (Nat.le_refl _) (fun known i member => (known.2 i member).1) span).any

end Limits

end PhpAnalyser
