import PhpAnalyser.Proofs.Layout.Judgement
import PhpAnalyser.Proofs.Lockstep.Neighbours
import PhpAnalyser.Proofs.Production.Unit
/-!
Whole files do not see the layout: texts with the same tokens have the same tree or the same errors,
but for spans.
-/
namespace PhpAnalyser

structure Nested.Blind (g : Nested) : Prop where
  expression : ∀ power, PhpAnalyser.Blind (g.expression power)
  statement : PhpAnalyser.Blind g.statement

namespace Agrees

theorem readers {g : Nested} (inner : g.Blind) : judgement.Inner g g where
  expression power s t same _ := inner.expression power s t same
  statement s t same _ := inner.statement s t same

theorem nestedAt (levels : Nat) : (Parser.nestedAt levels).Blind := by
  induction levels with
  | zero => exact ⟨fun _ => nested stuck, nested stuck⟩
  | succ levels ih => exact {
      expression power := nested (of_said (.binary (readers ih) power))
      statement := nested (of_said (.statement (readers ih))) }

theorem nameless : judgement.Nameless where
  fine _ := trivial
  change change _ _ same _ := .ok rfl { same with names := congrArg change same.names }

theorem compilationUnit : Blind Parser.compilationUnit := by
  rw [← Parser.compilationUnitBy_outermost]
  exact of_said (.compilationUnitBy (readers (nestedAt _)) nameless id)

end Agrees

/-- Two streams at the start of token lists that are alike up to the mark of the end. -/
theorem mirrors_initial {xs ys : List Token}
    (alike : List.Forall₂ Token.Alike (TokenStream.close xs) (TokenStream.close ys)) :
    Mirrors (.initial (.ofTokens xs)) (.initial (.ofTokens ys)) where
  place := rfl
  size := by
    change (TokenStream.close xs).toArray.size = (TokenStream.close ys).toArray.size
    rw [List.size_toArray, List.size_toArray, alike.length_eq]
  alike i a b here there := by
    change (TokenStream.close xs).toArray[i]? = some a at here
    change (TokenStream.close ys).toArray[i]? = some b at there
    rw [List.getElem?_toArray] at here there
    obtain ⟨low, rfl⟩ := List.getElem?_eq_some_iff.mp here
    obtain ⟨low', rfl⟩ := List.getElem?_eq_some_iff.mp there
    exact (List.forall₂_iff_get.mp alike).2 i low low'
  nodes := rfl
  names := rfl
  scope := rfl
  depth := rfl
  errors := rfl

/-- The marks of the end are alike, whatever is in front of them. -/
theorem Token.Alike.of_ends {a b : Token} (ends : a.kind = .eof) (ends' : b.kind = .eof)
    (text : a.text = b.text) : a.Alike b where
  kind := ends.trans ends'.symm
  text := text
  trivia brace := nomatch ends.symm.trans brace
  doc more := absurd ends more

theorem closing_alike (xs ys : List Token) :
    (TokenStream.closing xs).Alike (TokenStream.closing ys) := .of_ends rfl rfl rfl

theorem close_alike {xs ys : List Token} (alike : List.Forall₂ Token.Alike xs ys) :
    List.Forall₂ Token.Alike (TokenStream.close xs) (TokenStream.close ys) := by
  have ends : xs.getLast?.any (·.kind = .eof) = ys.getLast?.any (·.kind = .eof) := by
    have back : List.Forall₂ Token.Alike xs.reverse ys.reverse := List.forall₂_reverse_iff.mpr alike
    rw [← List.head?_reverse, ← List.head?_reverse]
    generalize xs.reverse = firsts at back ⊢
    generalize ys.reverse = seconds at back ⊢
    cases back with
    | nil => rfl
    | cons like _ => exact congrArg (fun kind => decide (kind = .eof)) like.kind
  rw [TokenStream.close, TokenStream.close, ends]
  split
  · exact alike
  · exact List.rel_append alike (.cons (closing_alike xs ys) .nil)

/-- The tokens of a text and those without the mark of the end are alike once the list is closed. -/
theorem close_scan_open (source : String) :
    List.Forall₂ Token.Alike (TokenStream.close (scan source))
      (TokenStream.close (scanOpen source)) := by
  obtain ⟨last, same, ends, inner⟩ := scan_open source
  obtain ⟨front, last', same', -, empty, -⟩ := scan_ends source
  have one : last = last' := by
    rw [same] at same'
    exact List.cons.inj (List.append_inj' same' rfl).2 |>.1
  have opened : TokenStream.close (scanOpen source) =
      scanOpen source ++ [TokenStream.closing (scanOpen source)] := by
    rw [TokenStream.close, if_neg]
    intro closed
    cases found : (scanOpen source).getLast? with
    | none => simp [found] at closed
    | some t =>
      rw [found] at closed
      exact inner t (List.mem_of_getLast? found) (of_decide_eq_true closed)
  rw [close_scan, opened, same]
  refine List.rel_append (List.forall₂_same.mpr fun t _ => ?_) (.cons ?_ .nil)
  · exact ⟨⟨rfl, rfl, fun _ => rfl⟩, fun _ => rfl⟩
  · exact .of_ends ends rfl (one ▸ empty)

inductive SameParse :
    Except (List ParseError) SyntaxTree → Except (List ParseError) SyntaxTree → Prop
  | tree {a b : SyntaxTree} (file : a.file = b.file) (root : a.root = b.root)
      (nodes : a.nodes.map Node.unplaced = b.nodes.map Node.unplaced) : SameParse (.ok a) (.ok b)
  | errors {xs ys : List ParseError} (faults : xs.map (·.fault) = ys.map (·.fault)) :
      SameParse (.error xs) (.error ys)

theorem same_parse {xs ys : List Token}
    (alike : List.Forall₂ Token.Alike (TokenStream.close xs) (TokenStream.close ys)) (file : Nat) :
    Option.Rel SameParse (parseTokens? (.ofTokens xs) file) (parseTokens? (.ofTokens ys) file) := by
  have matched := Agrees.compilationUnit _ _ (mirrors_initial alike)
  unfold parseTokens?
  revert matched
  generalize Parser.compilationUnit (.initial (.ofTokens xs)) = first
  generalize Parser.compilationUnit (.initial (.ofTokens ys)) = second
  intro matched
  cases matched with
  | stuck => exact .none
  | error fault behind =>
    refine .some (.errors ?_)
    rw [List.map_append, List.map_append, behind.errors, List.map_singleton, fault,
      List.map_singleton]
  | @ok root root' s t same behind =>
    refine .some ?_
    have silent : s.errors.isEmpty = t.errors.isEmpty := by
      rw [← List.isEmpty_map, behind.errors, List.isEmpty_map]
    rw [silent]
    split
    · exact .tree rfl same behind.nodes
    · exact .errors behind.errors

/-- A parser that is stuck in one text is stuck in the other. -/
theorem same_outcome {x y : Option (Except (List ParseError) SyntaxTree)}
    (same : Option.Rel SameParse x y) : SameParse (x.getD (.error [])) (y.getD (.error [])) := by
  cases same with
  | none => exact .errors rfl
  | some same => exact same

/-- The parse depends only on the tokens: token lists that are alike give the same tree or the same
errors, but for spans. The mark of the end may be left out of the tokens of a text. -/
theorem parse_layout :
    (∀ xs ys, List.Forall₂ Token.Alike xs ys → ∀ file,
      Option.Rel SameParse (parseTokens? (.ofTokens xs) file) (parseTokens? (.ofTokens ys) file) ∧
        SameParse (parseTokens (.ofTokens xs) file) (parseTokens (.ofTokens ys) file)) ∧
      ∀ source file, SameParse (parse source file) (parseTokens (.ofTokens (scanOpen source)) file) := by
  refine ⟨fun xs ys alike file => ?_, fun source file => ?_⟩
  · have same := same_parse (close_alike alike) file
    exact ⟨same, same_outcome same⟩
  · exact same_outcome (same_parse (close_scan_open source) file)

def tightText : String :=
  "<?php /** d */ class A { function f() { return $a{0}; } }"

def looseText : String :=
  "<?php # c\n/** d */\nclass  A\n\x7b\n  function f ( ) /* e */\n  \x7breturn $a\x7b 0 \x7d ; \x7d\n\x7d\n"

theorem parse_layout_loose : ∃ a b, parse tightText 0 = .ok a ∧ parse looseText 0 = .ok b ∧
    a.nodes.map Node.unplaced = b.nodes.map Node.unplaced := by
  have alike : List.Forall₂ Token.Alike (scan tightText) (scan looseText) := by decide +kernel
  have same : SameParse (parse tightText 0) (parse looseText 0) := (parse_layout.1 _ _ alike 0).2
  have accepted : (parse tightText 0).toOption.isSome := by decide +kernel
  generalize parse tightText 0 = first at same accepted ⊢
  generalize parse looseText 0 = second at same ⊢
  cases same with
  | tree _ _ nodes => exact ⟨_, _, rfl, rfl, nodes⟩
  | errors => cases accepted

end PhpAnalyser
