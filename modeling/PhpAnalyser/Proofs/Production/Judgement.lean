import PhpAnalyser.Grammar.Statement
import PhpAnalyser.Proofs.Grammar.Success
import PhpAnalyser.Proofs.Lockstep.State
/-!
What many readers have in common. A judgement of two readers that is passed on by the ways in which
readers are put together holds of all productions, once it holds of the readers for what is nested in
them. The clauses of a judgement are all that the productions are built from; the walk over the
productions themselves is made once, for every judgement. The rules by which the tokens behind a
reader are found, or by which two readers stand at different places, are not of this kind.
-/
namespace PhpAnalyser

/-- Two tokens that only differ in where they stand and in what stands in front of them, apart from a
doc comment, which no mark of the end needs, and from the emptiness in front of a brace. -/
structure Token.Alike (a b : Token) : Prop extends Token.Like a b where
  doc : a.kind ≠ .eof → a.docComment = b.docComment

instance (a b : Token) : Decidable (a.Alike b) :=
  decidable_of_iff ((a.kind = b.kind ∧ a.text = b.text ∧
      (a.kind = .leftBrace → a.trivia.isEmpty = b.trivia.isEmpty)) ∧
        (a.kind ≠ .eof → a.docComment = b.docComment))
    ⟨fun ⟨⟨kind, text, trivia⟩, doc⟩ => ⟨⟨kind, text, trivia⟩, doc⟩,
      fun ⟨⟨kind, text, trivia⟩, doc⟩ => ⟨⟨kind, text, trivia⟩, doc⟩⟩

theorem Token.Alike.refl (a : Token) : a.Alike a := ⟨⟨rfl, rfl, fun _ => rfl⟩, fun _ => rfl⟩

def ParseFault.isTooDeep : ParseFault → Bool
  | nestingTooDeep _ => true
  | _ => false

/-- The traits that a rule excludes. -/
def Adaptation.excluded : Adaptation → List String
  | precedence excluded => excluded
  | rename .. => []

namespace NodeKind

/-- The type around the children of a node. A function belongs to no type. -/
def scopeBelow (scope : Option TypeScope) : NodeKind → Option TypeScope
  | class_ name _ parent _ => some ⟨name, true, parent⟩
  | interface_ name _ => some ⟨name, false, none⟩
  | trait_ name => some ⟨name, false, none⟩
  | function_ .. => none
  | _ => scope

def isInner : NodeKind → Bool
  | class_ .. | interface_ .. | trait_ .. | function_ .. | lateBound _ => false
  | _ => true

theorem scope_of_inner {kind : NodeKind} (inner : kind.isInner = true)
    (scope : Option TypeScope) : kind.scopeBelow scope = scope := by
  cases kind <;> first | rfl | cases inner

/-- The names of types, functions and imports that a node declares or refers to. -/
def typeNames : NodeKind → List String
  | useImport name _ => [name]
  | class_ name _ parent interfaces => name :: (parent.toList ++ interfaces)
  | interface_ name parents => name :: parents
  | trait_ name => [name]
  | function_ name _ => [name]
  | traitUse traits => traits
  | traitAdaptation traitName _ action => traitName.toList ++ action.excluded
  | catch_ types _ => types
  | classReference name => [name]
  | lateBound reference => reference.target.toList
  | _ => []

/-- A member that is named by an expression has a pair of braces for its name. -/
def isNamedByExpression : NodeKind → Bool
  | propertyMember name | methodMember name | constantMember name => name == "{}"
  | _ => false

def isQuiet (kind : NodeKind) : Bool := kind.typeNames.isEmpty && !kind.isNamedByExpression

def isCommon (kind : NodeKind) : Bool := kind.isInner && kind.isQuiet

/-- The kinds of nodes that a loop puts around what it has read, their first child: operators with
two operands and the links of chains. -/
def takesUp : NodeKind → Bool
  | logicalOr | logicalAnd | logicalXor | booleanOr | booleanAnd | binary _ | instanceOf
  | conditional | memberAccess _ | functionCall | arrayIndex | stringIndex => true
  | _ => false

end NodeKind

/-- What one step of a loop leaves: the property `I` to go on, or `Q`. -/
def Leaves (I Q : β → Prop) : ForInStep β → Prop
  | .done b => Q b
  | .yield b => I b

@[simp] theorem leaves_done (I Q : β → Prop) (b : β) : Leaves I Q (.done b) = Q b := rfl

@[simp] theorem leaves_yield (I Q : β → Prop) (b : β) : Leaves I Q (.yield b) = I b := rfl

/-- What is said of the values of two readers: how they are related, what is known of the first one,
and how many nodes it leaves to what is read next. Where readers are `exact`, related values are the
same. -/
structure Verdict (exact : Prop) (α : Type) where
  same : α → α → Prop
  holds : α → Prop
  nodes : α → Nat
  refl : ∀ a, same a a
  eq : exact → ∀ a b, same a b → a = b

namespace Verdict

variable {exact : Prop}

/-- Both readers have the same value. -/
def of (holds : α → Prop) (nodes : α → Nat) : Verdict exact α :=
  ⟨Eq, holds, nodes, fun _ => rfl, fun _ _ _ => id⟩

@[simp] theorem of_holds (holds : α → Prop) (nodes : α → Nat) (a : α) :
    (of holds nodes : Verdict exact α).holds a = holds a := rfl

@[simp] theorem of_nodes (holds : α → Prop) (nodes : α → Nat) (a : α) :
    (of holds nodes : Verdict exact α).nodes a = nodes a := rfl

abbrev plain : Verdict exact α := of (fun _ => True) fun _ => 0

def holding (v : Verdict exact α) (Q : α → Prop) : Verdict exact α := { v with holds := Q }

end Verdict

/-- What is known of tokens, of names, of the kinds of nodes that may be made in a scope, and of the
states from which readers are called; and whether nodes are counted. -/
structure Facts where
  held : Token → Prop
  written : String → Prop
  fine : String → Prop
  bound : Option TypeScope → NodeKind → Prop
  seen : Option TypeScope → ParserState → Prop
  counting : Prop
  bound_of : ∀ {scope kind}, (∀ reference, kind ≠ .lateBound reference) → bound scope kind
  held_current : ∀ {scope s}, seen scope s → held s.stream.current
  fine_resolve : ∀ {scope s name}, seen scope s → written name → fine (s.names.resolve name)
  fine_qualify : ∀ {scope s token}, seen scope s → held token → token.kind = .identifier →
    fine (s.names.qualify token.text)
  bound_late : ∀ {scope s keyword target}, seen scope s →
    Parser.lateTarget keyword s.scope = .ok target → bound scope (.lateBound ⟨keyword, target⟩) ∧
      ∀ name ∈ target.toList, fine name
  unbraced : ∀ {token}, counting → held token → token.text ≠ "{}"

/-- Nothing is known. -/
def Facts.none : Facts where
  held _ := True
  written _ := True
  fine _ := True
  bound _ _ := True
  seen _ _ := True
  counting := False
  bound_of _ := trivial
  held_current _ := trivial
  fine_resolve _ _ := trivial
  fine_qualify _ _ _ := trivial
  bound_late _ _ := ⟨trivial, fun _ _ => trivial⟩
  unbraced := False.elim

def Facts.FineScope (facts : Facts) (scope : Option TypeScope) : Prop :=
  ∀ inner, scope = some inner →
    facts.fine inner.name ∧ ∀ parent, inner.parent = some parent → facts.fine parent

/-- How much alike the tokens and spans of two readers are. Where the readers are `exact`, what is
alike is the same. -/
structure Likeness where
  exact : Prop
  tokens : Token → Token → Prop
  spans : Span → Span → Prop
  tokens_refl : ∀ a, tokens a a
  tokens_alike : ∀ {a b}, tokens a b → a.Alike b
  tokens_eq : exact → ∀ a b, tokens a b → a = b
  tokens_span : ∀ {a b}, tokens a b → spans a.span b.span
  spans_refl : ∀ a, spans a a
  spans_eq : exact → ∀ a b, spans a b → a = b
  spans_merge : ∀ {a b c d}, spans a b → spans c d → spans (a.merge c) (b.merge d)

namespace Likeness

def same : Likeness where
  exact := True
  tokens := Eq
  spans := Eq
  tokens_refl _ := rfl
  tokens_alike := by
    rintro a _ rfl
    exact .refl a
  tokens_eq _ _ _ := id
  tokens_span := congrArg Token.span
  spans_refl _ := rfl
  spans_eq _ _ _ := id
  spans_merge := by
    rintro a _ c _ rfl rfl
    rfl

variable {L : Likeness} {a b : Token}

theorem tokens.kind (alike : L.tokens a b) : a.kind = b.kind := (L.tokens_alike alike).kind

theorem tokens.text (alike : L.tokens a b) : a.text = b.text := (L.tokens_alike alike).text

theorem tokens.doc (alike : L.tokens a b) (more : ¬L.exact → a.kind ≠ .eof) :
    a.docComment = b.docComment := by
  by_cases isExact : L.exact
  · rw [L.tokens_eq isExact a b alike]
  · exact (L.tokens_alike alike).doc (more isExact)

theorem tokens.is_operator (alike : L.tokens a b) (op : String) :
    a.isOperator op = b.isOperator op :=
  (L.tokens_alike alike).is_operator op

end Likeness

/-- Two parsers that look alike. -/
structure SameView (L : Likeness) (s t : ParserState) : Prop where
  current : L.tokens s.stream.current t.stream.current
  peek : ∀ k, L.tokens (s.stream.peek k) (t.stream.peek k)
  remaining : s.stream.remaining = t.stream.remaining
  last : L.spans s.last t.last
  names : s.names = t.names
  scope : s.scope = t.scope
  node : ∀ i : Nat, (s.nodes[i]? = none ∧ t.nodes[i]? = none) ∨ ∃ m n : Node, s.nodes[i]? = some m ∧
    t.nodes[i]? = some n ∧ m.kind = n.kind ∧ L.spans m.span n.span

theorem SameView.refl (L : Likeness) (s : ParserState) : SameView L s s where
  current := L.tokens_refl _
  peek _ := L.tokens_refl _
  remaining := rfl
  last := L.spans_refl _
  names := rfl
  scope := rfl
  node i := by
    cases s.nodes[i]? with
    | none => exact .inl ⟨rfl, rfl⟩
    | some n => exact .inr ⟨n, n, rfl, rfl, rfl, L.spans_refl _⟩

/-- A judgement of two readers. `Says scope front given hand p q v` is about `p` and `q` in the body
of the type `scope`, in front of a token if `front` holds, behind what is `given`, and with so many
nodes at hand. A node of level `k` has at most so many nodes above those that were nested in it. -/
structure Judgement extends Likeness where
  facts : Facts
  node : Option TypeScope → Nat → Nat → Prop
  /-- A variable variable, or what may stand behind its dollar. -/
  dollar : Option TypeScope → Nat → Prop
  Says : ∀ {α : Type}, Option TypeScope → Prop → Prop → Nat → Parser α → Parser α →
    Verdict exact α → Prop
  node_mono : ∀ {scope k l i}, node scope k i → k ≤ l → node scope l i
  dollar_of_node : ∀ {scope i}, node scope 1 i → dollar scope i
  node_of_dollar : ∀ {scope i}, dollar scope i → node scope 2 i
  says_pure : ∀ {α scope front given hand} {v : Verdict exact α} {a b : α}, v.same a b →
    (given → v.holds a) → (given → facts.counting → hand = v.nodes a) →
    Says scope front given hand (pure a) (pure b) v
  says_bind : ∀ {α β scope front given n m} {p q : Parser α} {f g : α → Parser β}
    {v : Verdict exact α} {w : Verdict exact β}, Says scope front given m p q v →
    (∀ a b, v.same a b → Says scope False (given ∧ v.holds a) (n + v.nodes a) (f a) (g b) w) →
    Says scope front given (n + m) (p >>= f) (q >>= g) w
  says_weaken : ∀ {α scope front front' given given' n} {p q : Parser α} {v : Verdict exact α},
    (front → ¬exact → front') → (given' → given) → Says scope front given n p q v →
    Says scope front' given' n p q v
  says_holding : ∀ {α scope front given n} {p q : Parser α} {v : Verdict exact α} {Q : α → Prop},
    (∀ s a s', p s = some (.ok a, s') → v.holds a → Q a) → Says scope front given n p q v →
    Says scope front given n p q (v.holding Q)
  says_stuck : ∀ {α scope front given n} {v : Verdict exact α},
    Says scope front given n Parser.stuck Parser.stuck v
  says_throw : ∀ {α scope front given n} {v : Verdict exact α} {fault span span'},
    fault.isTooDeep = false → spans span span' →
    Says scope front given n (throw ⟨fault, span⟩) (throw ⟨fault, span'⟩) v
  /-- Where the parser looks at its state, it stays in front of the current token. -/
  says_look : ∀ {α scope front given n} {f g : ParserState → Parser α} {v : Verdict exact α},
    (∀ s t, SameView toLikeness s t → facts.seen scope s →
      (front → ¬exact → s.stream.current.kind ≠ .eof) →
      Says scope (s.stream.current.kind ≠ .eof) given n (f s) (g t) v) →
    Says scope front given n (MonadState.get >>= f) (MonadState.get >>= g) v
  says_skip : ∀ {scope front given}, Says scope front given 0 Parser.skip Parser.skip .plain
  says_name : ∀ {scope front given} {v : Verdict exact (String × Span)},
    Says scope front given 0 Parser.name Parser.name v →
    Says scope front given 0 Parser.name Parser.name
      (v.holding fun name => facts.written name.1)
  says_push : ∀ {scope front given n k} {kind : NodeKind} {a b : Span} {ids : List Nat},
    facts.bound scope kind → (given → ∀ name ∈ kind.typeNames, facts.fine name) → spans a b →
    k < 6 → (given → ∀ i ∈ ids, node (kind.scopeBelow scope) k i) →
    (given → facts.counting → n = ids.length + (if kind.isNamedByExpression then 1 else 0)) →
    Says scope front given n (Parser.push kind a ids) (Parser.push kind b ids)
      (.of (node scope (k + 1)) fun _ => 1)
  says_take : ∀ {scope front given n k} {kind : NodeKind} {a b : Span} {base : Nat}
    {ids : List Nat}, kind.takesUp = true → spans a b → k < 6 →
    (given → node scope (k + 1) base) → (given → ∀ i ∈ ids, node scope k i) →
    (given → facts.counting → n = ids.length + 1) →
    Says scope front given n (Parser.push kind a (base :: ids)) (Parser.push kind b (base :: ids))
      (.of (node scope (k + 1)) fun _ => 1)
  says_dollar : ∀ {scope front given} {a b : Span} {i : Nat}, spans a b → (given → dollar scope i) →
    Says scope front given 1 (Parser.push .variableVariable a [i])
      (Parser.push .variableVariable b [i]) (.of (dollar scope) fun _ => 1)
  says_doc : ∀ {scope front given} (i : Nat) (doc : Option String),
    Says scope front given 0 (Parser.setDocComment i doc) (Parser.setDocComment i doc) .plain
  says_within : ∀ {α scope inner front given n} {p q : Parser α} {v : Verdict exact α},
    (given → facts.FineScope inner) → Says inner front given n p q v →
    Says scope front given n (Parser.withScope inner p) (Parser.withScope inner q) v
  says_recovering : ∀ {scope front given k} {stop : Token → Bool} {p q : Parser (List Nat)},
    (∀ a b, tokens a b → stop a = stop b) →
    Says scope True given 0 p q (.of (fun ids => ∀ i ∈ ids, node scope k i) List.length) →
    Says scope front given 0 (Parser.recovering stop p) (Parser.recovering stop q)
      (.of (fun ids => ∀ i ∈ ids, node scope k i) List.length)

namespace Judgement

section Verdicts

variable (J : Judgement) (scope : Option TypeScope) (k : Nat)

def All (ids : List Nat) : Prop := ∀ i ∈ ids, J.node scope k i

abbrev one : Verdict J.exact Nat := .of (J.node scope k) fun _ => 1

abbrev many : Verdict J.exact (List Nat) := .of (J.All scope k) List.length

abbrev perhaps : Verdict J.exact (Option Nat) :=
  .of (fun id => J.All scope k id.toList) fun id => id.toList.length

def token (Q : Token → Prop) : Verdict J.exact Token :=
  ⟨J.tokens, fun a => J.facts.held a ∧ Q a, fun _ => 0, J.tokens_refl, J.tokens_eq⟩

def place : Verdict J.exact Span :=
  ⟨J.spans, fun _ => True, fun _ => 0, J.spans_refl, J.spans_eq⟩

/-- A name as it is written, with its span. -/
def placed : Verdict J.exact (String × Span) where
  same a b := a.1 = b.1 ∧ J.spans a.2 b.2
  holds _ := True
  nodes _ := 0
  refl a := ⟨rfl, J.spans_refl a.2⟩
  eq isExact := fun ⟨a, x⟩ ⟨b, y⟩ ⟨name, span⟩ => by
    obtain rfl : a = b := name
    obtain rfl : x = y := J.spans_eq isExact x y span
    rfl

end Verdicts

section All

variable {J : Judgement} {scope : Option TypeScope} {k l i : Nat} {ids others : List Nat}

@[simp] theorem all_nil : J.All scope k [] := by simp [All]

@[simp] theorem all_cons : J.All scope k (i :: ids) ↔ J.node scope k i ∧ J.All scope k ids := by
  simp [All]

@[simp] theorem all_append :
    J.All scope k (ids ++ others) ↔ J.All scope k ids ∧ J.All scope k others := by
  simp [All, or_imp, forall_and]

theorem All.mono (all : J.All scope k ids) (le : k ≤ l) : J.All scope l ids :=
  fun i member => J.node_mono (all i member) le

theorem node.mono (low : J.node scope k i) (le : k ≤ l) : J.node scope l i := J.node_mono low le

end All

section Readers

variable (J : Judgement) (scope : Option TypeScope) (front given : Prop)

/-- Readers of which nothing is asked. -/
abbrev Plain (p q : Parser α) : Prop := J.Says scope front given 0 p q .plain

/-- Readers that make one node, which may be made of `n` others. -/
abbrev One (n k : Nat) (p q : Parser Nat) : Prop := J.Says scope front given n p q (J.one scope k)

abbrev Many (k : Nat) (p q : Parser (List Nat)) : Prop :=
  J.Says scope front given 0 p q (J.many scope k)

end Readers

/-- The readers `g` and `h` of what is nested in a production. -/
structure Inner (J : Judgement) (g h : Nested) : Prop where
  expression : ∀ {scope front given} power,
    J.One scope front given 0 0 (g.expression power) (h.expression power)
  statement : ∀ {scope front given},
    J.Says scope front given 0 g.statement h.statement (J.perhaps scope 0)

end Judgement

end PhpAnalyser
