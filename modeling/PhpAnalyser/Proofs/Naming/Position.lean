import PhpAnalyser.Proofs.Naming.Words
import PhpAnalyser.Proofs.Scope.Unit
/-!
The positions in which a type is referred to. Each has a look at the first token of its own before
the name is read, and all of them record what the name stands for, but for a name that starts with
`namespace` and stands behind `instanceof`: it is read as an operand.
-/
namespace PhpAnalyser

section Names

variable {s : ParserState}

end Names

section Reference

variable {g : Nested} {s s₁ : ParserState} {written : String} {span : Span}
  (named : Parser.name s = some (.ok (written, span), s₁))
include named

end Reference

/-- Nodes that have been made stay. -/
theorem Succeeds.develops {p : Parser α} {s : ParserState} {Q : α → Prop}
    (heeds : Heeds #[] s.scope p Q) : Succeeds p s fun _ s' => Develops s.nodes s'.nodes :=
  fun _ s' run => (heeds s rfl _ s' run).2.1

section Expressions

variable {g : Nested} {s₀ s s₁ : ParserState} {written : String} {span : Span}

end Expressions

def Parser.typeItem (separated : Parser Bool) (types : List String) :
    Parser (ForInStep (List String)) := do
  let types := types ++ [← className]
  if ← separated then return .yield types else return .done types

section Lists

variable {separated : Parser Bool} {s s₀ s₁ : ParserState} {written : String} {span : Span}
  {front : List String}

end Lists

section Declarations

variable {g : Nested} {s₀ s₂ s₃ s s₁ : ParserState} {written name : String} {span : Span}
  {front : List String} {modifiers : Modifiers}

theorem declared {kind : NodeKind} {start : Token} {ids : List Nat} :
    Succeeds (Parser.declare kind start ids) s₀ fun i s' => s'.Has i kind ids := by
  refine .bind Succeeds.finished fun i s' ⟨made, _⟩ =>
    .bind (R := fun _ s'' => s''.Has i kind ids) ?_ fun _ _ made => .pure made
  refine .get <| .ite (fun _ => ?_) fun _ _ _ run => nomatch run
  intro _ s'' run
  cases run
  exact made.develops annotate_develops

end Declarations

example : (parse "<?php $x instanceof namespace\\N;" 0).toOption.map (fun t => t.kind 1) =
    some (.constant "namespace\\N") := by decide +kernel

end PhpAnalyser
