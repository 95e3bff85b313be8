import PhpAnalyser.Grammar.Unit
import PhpAnalyser.Proofs.Production.Statement
/-!
The walk over the productions of imports, namespaces and whole files, for judgements that ask nothing
of names. A namespace may stand in a namespace, so their nodes have no level.
-/
namespace PhpAnalyser

namespace Parser

def topStatementBy (g : Nested) : Nat → Parser (List Nat)
  | 0 => stuck
  | fuel + 1 => do
    let token ← current
    if token.kind = .keyword .namespace_ && (← ahead 1).kind ≠ .backslash then
      return [← namespaceDeclaration (topStatementBy g fuel)]
    if token.kind = .keyword .use_ then return ← imports
    return (← g.statement).toList

theorem topStatementBy_outermost (fuel : Nat) :
    topStatementBy outermost fuel = topStatement fuel := by
  induction fuel with
  | zero => rfl
  | succ fuel ih => rw [topStatementBy, ih, topStatement]

def compilationUnitBy (g : Nested) : Parser Nat := do
  let ids ← recovering (fun _ => false) (do topStatementBy g (← remaining))
  push .compilationUnit (← hull ids) ids

theorem compilationUnitBy_outermost : compilationUnitBy outermost = compilationUnit := by
  unfold compilationUnitBy compilationUnit
  simp only [topStatementBy_outermost]

end Parser

namespace Judgement

/-- Nothing is asked of names, and those in effect may change. -/
structure Nameless (J : Judgement) : Prop where
  fine : ∀ name, J.facts.fine name
  change : ∀ {scope front given} (change : NameContext → NameContext),
    J.Plain scope front given (modify fun s : ParserState => { s with names := change s.names })
      (modify fun s : ParserState => { s with names := change s.names })

namespace Says

variable {J : Judgement} {scope : Option TypeScope} {front given : Prop} {n : Nat} {a b : Span}

theorem importAlias (written : String) :
    J.Plain scope front given (Parser.importAlias written) (Parser.importAlias written) :=
  .then_ (eat _) fun _ => .ite .rfl
    (.behind_token (expect _ _) fun _ _ same => pure same.text (fun _ => trivial) rfl) done

theorem importsTypes : J.Plain scope front given Parser.importsTypes Parser.importsTypes := by
  refine .current fun x y same _ _ => ?_
  rw [same.kind]
  exact .ite .rfl (.then_ skip fun _ => done) done

theorem packageName : J.Plain scope front given Parser.packageName Parser.packageName :=
  .check _ fun _ => .ite .rfl (.behind_name fun _ _ _ _ => done) done

theorem hull (ids : List Nat) :
    J.Says scope front given 0 (Parser.hull ids) (Parser.hull ids) J.place := by
  unfold Parser.hull
  split
  · exact .node fun _ _ _ first => .node fun _ _ _ last =>
      give (J.spans_merge first last) (fun _ => trivial) rfl
  · exact give (J.spans_refl _) (fun _ => trivial) rfl

section Imports

variable (nameless : J.Nameless)
include nameless

theorem importClause (same : J.spans a b) (written : String) (recorded : Bool) :
    J.Many scope front given 1 (Parser.importClause a written recorded)
      (Parser.importClause b written recorded) := by
  refine .then_ (importAlias written) fun shortName => .ite .rfl (pure rfl (fun _ => all_nil) rfl) ?_
  have made : J.One scope False given 0 1 (Parser.finish (.useImport written shortName) a [])
      (Parser.finish (.useImport written shortName) b []) :=
    finish (J.facts.bound_of nofun) (fun _ _ _ => nameless.fine _) same (by decide)
      (fun _ => all_nil) rfl
  exact .then_ (nameless.change (·.addImport shortName written)) fun _ => .bind made fun _ =>
    pure rfl (fun known => by simp [known.2]) rfl

theorem importGroup (same : J.spans a b) (group : String) (recorded : Bool) :
    J.Many scope front given 1 (Parser.importGroup a group recorded)
      (Parser.importGroup b group recorded) := by
  refine collect fun ids => .behind_name fun _ _ _ _ => .weaken ?_ And.left
  refine .bind (importClause nameless same _ recorded) fun more => .then_ (eat _) fun _ => ?_
  have all (known : (given ∧ J.All scope 1 ids) ∧ J.All scope 1 more) :
      J.All scope 1 (ids ++ more) := by simp [known.1.2, known.2]
  exact .ite .rfl (pure rfl all (by simp)) <| .check _ fun _ =>
    .ite .rfl (pure rfl all (by simp)) (pure rfl all (by simp))

theorem importItem (recorded : Bool) :
    J.Many scope front given 1 (Parser.importItem recorded) (Parser.importItem recorded) := by
  refine .current fun x y same _ _ => .behind_name fun written _ _ _ => .check _ fun _ =>
    .ahead 1 fun _ _ next => ?_
  rw [next.kind]
  refine .ite .rfl ?_ (importClause nameless (J.tokens_span same) _ recorded)
  exact .then_ skip fun _ => .then_ skip fun _ =>
    .bind (importGroup nameless (J.tokens_span same) _ recorded) fun _ =>
      .then_ (past _ _) fun _ => pure rfl And.right (Nat.zero_add _)

theorem imports : J.Many scope front given 1 Parser.imports Parser.imports := by
  have items {front : Prop} (recorded : Bool) : J.Says scope front given 0
      (Parser.commaSeparated (Parser.importItem recorded))
      (Parser.commaSeparated (Parser.importItem recorded))
      (.of (fun ids => J.All scope 1 ids.flatten) fun ids => ids.flatten.length) := by
    refine repeatFrom (I := fun ids => J.All scope 1 ids.flatten)
      (N := fun ids : List (List Nat) => ids.flatten.length) (b := []) (fun _ => all_nil) fun ids => ?_
    refine .bind (importItem nameless recorded) fun more => .then_ (eat _) fun _ => ?_
    have all (known : (given ∧ J.All scope 1 ids.flatten) ∧ J.All scope 1 more) :
        J.All scope 1 (ids ++ [more]).flatten := by simp [known.1.2, known.2]
    exact .ite .rfl (pure rfl all (by simp)) (pure rfl all (by simp))
  refine .behind_token advance fun _ _ same => .then_ importsTypes fun recorded =>
    .bind (items recorded) fun ids => .then_ (pastStatement (J.tokens_span same)) fun _ =>
      pure rfl And.right (Nat.zero_add _)

end Imports

section Namespace

variable {item item' : Parser (List Nat)} {k : Nat}
  (each : ∀ {front given}, J.Many scope front given k item item')
include each

theorem namespaceBody (same : J.spans a b) :
    J.Many scope front given k (Parser.namespaceBody item a) (Parser.namespaceBody item' b) := by
  refine .then_ (eat _) fun _ => .ite .rfl ?_ ?_
  · exact .bind (recovering (fun _ _ same => by rw [same.kind]) each) fun _ =>
      .then_ (past _ _) fun _ => pure rfl And.right (Nat.zero_add _)
  · exact .then_ (pastStatement same) fun _ => recovering (fun _ _ same => by rw [same.kind]) each

theorem namespaceDeclaration (nameless : J.Nameless) (room : k < 6) :
    J.One scope front given 0 (k + 1) (Parser.namespaceDeclaration item)
      (Parser.namespaceDeclaration item') :=
  .behind_token advance fun _ _ same => .then_ packageName fun package =>
    .then_ (nameless.change fun _ => .ofNamespace package) fun _ =>
      .bind (namespaceBody each (J.tokens_span same)) fun _ =>
        finishCommon rfl (J.tokens_span same) room And.right (Nat.zero_add _)

end Namespace

section Unit

variable {g h : Nested} (inner : J.Inner g h) (nameless : J.Nameless)
  (level : ∀ {scope i}, J.node scope 1 i → J.node scope 0 i)
include inner nameless level

theorem topStatementBy (fuel : Nat) : J.Many scope front given 0 (Parser.topStatementBy g fuel)
    (Parser.topStatementBy h fuel) := by
  induction fuel generalizing front given with
  | zero => exact stuck
  | succ fuel ih =>
    refine .current fun x y same _ _ => .ahead 1 fun _ _ next => ?_
    rw [same.kind, next.kind]
    refine .ite .rfl ?_ (.ite .rfl ?_ ?_)
    · exact .bind (namespaceDeclaration ih nameless (by decide)) fun _ =>
        pure rfl (fun known => by simp [level known.2]) rfl
    · exact (imports nameless).mono fun _ all i member => level (all i member)
    · exact .bind inner.statement fun _ => pure rfl And.right (Nat.zero_add _)

theorem compilationUnitBy : J.One scope front given 0 1 (Parser.compilationUnitBy g)
    (Parser.compilationUnitBy h) := by
  have items : J.Many scope True given 0 (do Parser.topStatementBy g (← Parser.remaining))
      (do Parser.topStatementBy h (← Parser.remaining)) :=
    .remaining fun fuel => topStatementBy inner nameless level fuel
  exact .bind (recovering (fun _ _ _ => rfl) items) fun ids => .behind_span (hull ids)
    fun _ _ same => pushCommon rfl same (by decide) And.right (Nat.zero_add _)

end Unit

end Says

end Judgement

end PhpAnalyser
