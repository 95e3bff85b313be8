import PhpAnalyser.Proofs.Production.Unit
import PhpAnalyser.Proofs.Scope.Judgement
/-!
Whole files leave the type around their statements in effect: no type.
-/
namespace PhpAnalyser

structure Nested.Heeds (final : Array Node) (g : Nested) : Prop where
  expression : ∀ power scope, PhpAnalyser.Heeds final scope (g.expression power) (InScope final scope)
  statement : ∀ scope, PhpAnalyser.Heeds final scope g.statement fun id =>
    AllInScope final scope id.toList

namespace Heeds

variable {final : Array Node} {scope : Option TypeScope}

theorem readers {g : Nested} (inner : g.Heeds final) : (judgement final).Inner g g where
  expression power := (inner.expression power _).mono fun _ here _ => here
  statement := (inner.statement _).mono fun _ here _ => here

theorem nestedAt (levels : Nat) : (Parser.nestedAt levels).Heeds final := by
  induction levels with
  | zero => exact ⟨fun _ _ => nested stuck, fun _ => nested stuck⟩
  | succ levels ih => exact {
      expression power _ := nested (of_said (.binary (readers ih) power))
      statement _ := nested (of_said (.statement (readers ih))) }

theorem nameless : (judgement final).Nameless where
  fine _ := trivial
  change _ := by
    refine mono (R := fun _ => True) ?_ fun _ _ _ => trivial
    exact modify (fun _ => rfl) fun _ => rfl

theorem compilationUnit : Heeds final scope Parser.compilationUnit (InScope final scope) := by
  rw [← Parser.compilationUnitBy_outermost]
  exact of_said (.compilationUnitBy (readers (nestedAt _)) nameless id)

end Heeds

end PhpAnalyser
