import PhpAnalyser.Grammar.Precedence
import PhpAnalyser.Proofs.Syntax.Arena
/-!
How tightly the operators of a tree hold their operands, and what a tree of operators and
variables reads like from left to right.
-/
namespace PhpAnalyser

namespace NodeKind

def operator? : NodeKind → Option String
  | binary op => some op
  | booleanOr => some "||"
  | booleanAnd => some "&&"
  | logicalOr => some "or"
  | logicalAnd => some "and"
  | logicalXor => some "xor"
  | instanceOf => some "instanceof"
  | _ => none

def power? : NodeKind → Option BindingPower
  | conditional => some ternaryPower
  | kind => kind.operator?.bind bindingPower?

def operandPower? : NodeKind → Option Nat
  | unary op => (unaryKind? op).map (·.2)
  | cast _ => some unaryOperandPower
  | _ => none

def isLogical : NodeKind → Bool
  | logicalOr | logicalAnd | logicalXor => true
  | _ => false

/-- The kinds whose children may be of any kind. -/
def isFree : NodeKind → Bool
  | binary _ | booleanOr | booleanAnd | logicalOr | logicalAnd | logicalXor | instanceOf
  | conditional | unary _ | cast _ | assignment _ | expressionStatement => false
  | _ => true

def isPlain : NodeKind → Bool
  | class_ .. | interface_ .. | trait_ _ | function_ .. | namespace_ _ => false
  | kind => kind.isFree

end NodeKind

theorem binary_kind_operator (op : String) : (binaryKind op).operator? = some op := by
  unfold binaryKind
  repeat' split
  all_goals simp_all [NodeKind.operator?]

theorem binary_kind_power {op : String} {p : BindingPower} (known : bindingPower? op = some p) :
    (binaryKind op).power? = some p := by
  have operator := binary_kind_operator op
  unfold NodeKind.power?
  split
  · rename_i same
    rw [same] at operator
    cases operator
  · rw [operator]
    exact known

theorem binary_kind_made (op op' : String) (same : (binaryKind op).operator? = some op') :
    binaryKind op = binaryKind op' := by
  rw [binary_kind_operator] at same
  rw [Option.some.inj same]

theorem NodeKind.free_of_plain {kind : NodeKind} (plain : kind.isPlain) : kind.isFree := by
  cases kind <;> first | rfl | cases plain

theorem power_of_free {kind : NodeKind} (free : kind.isFree = true) : kind.power? = none := by
  cases kind <;> first | rfl | cases free

theorem power_of_plain {kind : NodeKind} (plain : kind.isPlain = true) : kind.power? = none :=
  power_of_free (NodeKind.free_of_plain plain)

theorem unary_kind_asks {op : String} {kind : NodeKind} {power : Nat}
    (known : unaryKind? op = some (kind, power)) :
    kind.isPlain ∨ kind.operandPower? = some power := by
  by_cases plain : kind.isPlain
  · exact .inl plain
  have isUnary : kind = .unary op := by
    unfold unaryKind? at known
    split at known
    · cases known
      rfl
    split at known
    · cases known
      rfl
    split at known
    · cases known
      exact absurd rfl plain
    split at known
    · cases known
      exact absurd rfl plain
    · cases known
  rw [isUnary, NodeKind.operandPower?, known]
  exact .inr rfl

/-- The powers of an operator: those of a level, whose operators all lean to one side. -/
def Tabled (op : String) (p : BindingPower) : Prop :=
  (∃ level, level % 10 = 0 ∧ level ≤ 160 ∧ level ≠ 60 ∧ p = .leftward level) ∨
    p = .rightward 60 ∧ op = "??" ∨ p = .leftward 170 ∧ op = "instanceof" ∨
      p = .rightward 180 ∧ op = "**"

theorem tabled_of_ite {entry : Prop} [Decidable entry] {op : String} {p q : BindingPower}
    {rest : Option BindingPower} (here : entry → Tabled op q) (behind : rest = some p → Tabled op p)
    (known : (if entry then some q else rest) = some p) : Tabled op p := by
  by_cases found : entry
  · rw [if_pos found] at known
    exact Option.some.inj known ▸ here found
  · rw [if_neg found] at known
    exact behind known

theorem tabled_leftward (op : String) (level : Nat)
    (isLevel : level % 10 = 0 ∧ level ≤ 160 ∧ level ≠ 60) : Tabled op (.leftward level) :=
  .inl ⟨level, isLevel.1, isLevel.2.1, isLevel.2.2, rfl⟩

theorem binding_power_tabled {op : String} {p : BindingPower} (known : bindingPower? op = some p) :
    Tabled op p := by
  unfold bindingPower? at known
  revert known
  iterate 3 refine tabled_of_ite (fun _ => tabled_leftward op _ (by decide)) ?_
  refine tabled_of_ite (fun same => .inr (.inl ⟨rfl, same⟩)) ?_
  iterate 10 refine tabled_of_ite (fun _ => tabled_leftward op _ (by decide)) ?_
  refine tabled_of_ite (fun same => .inr (.inr (.inl ⟨rfl, same⟩))) ?_
  refine tabled_of_ite (fun same => .inr (.inr (.inr ⟨rfl, same⟩))) ?_
  exact fun absurd => nomatch absurd

/-- Only a type test and a power bind at least as much as the operand of a negation. -/
theorem tight_operator {op : String} {p : BindingPower} (known : bindingPower? op = some p)
    (tight : notOperandPower ≤ p.left) :
    op = "**" ∨ op = "instanceof" ∧ p.left < unaryOperandPower := by
  rcases binding_power_tabled known with ⟨level, -, le, -, rfl⟩ | ⟨rfl, -⟩ | ⟨rfl, same⟩ | ⟨-, same⟩
  · simp only [notOperandPower, BindingPower.leftward] at tight
    omega
  · exact absurd tight (by decide)
  · exact .inr ⟨same, by decide⟩
  · exact .inl same

def isJoint (op : String) : Bool := (bindingPower? op).isSome && op ≠ "instanceof"

inductive Word where
  | name (text : String)
  | operator (op : String)
  | question
  | colon
  deriving DecidableEq, Repr

def Token.word? (t : Token) : Option Word :=
  match t.kind with
  | .variable => some (.name t.text)
  | .question => some .question
  | .colon => some .colon
  | _ => t.operator?.bind fun op => if isJoint op then some (.operator op) else none

def isFlat : List Word → Bool
  | [.name _] => true
  | .name _ :: .question :: .colon :: rest => isFlat rest
  | .name _ :: .name _ :: _ => false
  | .name _ :: _ :: rest => isFlat rest
  | _ => false

/-- A tree of operators over variables. -/
inductive Chain where
  | leaf (name : String)
  | join (op : String) (left right : Chain)
  | choose (test middle right : Chain)
  | default (test right : Chain)
  deriving DecidableEq, Repr

namespace Chain

def reading : Chain → List Word
  | leaf name => [.name name]
  | join op left right => left.reading ++ .operator op :: right.reading
  | choose test middle right =>
    test.reading ++ .question :: (middle.reading ++ .colon :: right.reading)
  | default test right => test.reading ++ .question :: .colon :: right.reading

def power? : Chain → Option BindingPower
  | leaf _ => none
  | join op _ _ => bindingPower? op
  | choose .. | default .. => some ternaryPower

def Fits (p : BindingPower) (left right : Chain) : Prop :=
  (∀ q, left.power? = some q → p.left < q.right) ∧ ∀ q, right.power? = some q → p.right ≤ q.left

/-- Every operator of the tree holds its operands as the table says. -/
def Obeys : Chain → Prop
  | leaf _ => True
  | join op left right =>
    (∃ p, bindingPower? op = some p ∧ Fits p left right) ∧ left.Obeys ∧ right.Obeys
  | choose test middle right =>
    Fits ternaryPower test right ∧ test.Obeys ∧ middle.Obeys ∧ right.Obeys
  | default test right => Fits ternaryPower test right ∧ test.Obeys ∧ right.Obeys

end Chain

/-- The nodes from `i` down are the nodes of a tree of operators. -/
inductive Denotes (nodes : Array Node) : Nat → Chain → Prop
  | leaf {i : Nat} {n : Node} {name : String} (found : nodes[i]? = some n)
      (kind : n.kind = .variable_ name) (children : n.children = []) : Denotes nodes i (.leaf name)
  | join {i a b : Nat} {n : Node} {op : String} {left right : Chain} (found : nodes[i]? = some n)
      (kind : n.kind = binaryKind op) (joint : isJoint op) (children : n.children = [a, b])
      (first : Denotes nodes a left) (second : Denotes nodes b right) :
      Denotes nodes i (.join op left right)
  | choose {i a b c : Nat} {n : Node} {test middle right : Chain} (found : nodes[i]? = some n)
      (kind : n.kind = .conditional) (children : n.children = [a, b, c])
      (first : Denotes nodes a test) (second : Denotes nodes b middle)
      (third : Denotes nodes c right) : Denotes nodes i (.choose test middle right)
  | default {i a b : Nat} {n : Node} {test right : Chain} (found : nodes[i]? = some n)
      (kind : n.kind = .conditional) (children : n.children = [a, b])
      (first : Denotes nodes a test) (second : Denotes nodes b right) :
      Denotes nodes i (.default test right)

theorem Denotes.develops {nodes nodes' : Array Node} {i : Nat} {e : Chain}
    (denotes : Denotes nodes i e) (develops : Develops nodes nodes') : Denotes nodes' i e := by
  induction denotes with
  | leaf found kind children =>
    obtain ⟨n', found', kind', -, children'⟩ := develops _ _ found
    exact .leaf found' (kind'.trans kind) (children'.trans children)
  | join found kind joint children _ _ first second =>
    obtain ⟨n', found', kind', -, children'⟩ := develops _ _ found
    exact .join found' (kind'.trans kind) joint (children'.trans children) first second
  | choose found kind children _ _ _ first second third =>
    obtain ⟨n', found', kind', -, children'⟩ := develops _ _ found
    exact .choose found' (kind'.trans kind) (children'.trans children) first second third
  | default found kind children _ _ first second =>
    obtain ⟨n', found', kind', -, children'⟩ := develops _ _ found
    exact .default found' (kind'.trans kind) (children'.trans children) first second

def kindAt (nodes : Array Node) (i : Nat) : Option NodeKind := (nodes[i]?).map (·.kind)

def powerAt (nodes : Array Node) (i : Nat) : Option BindingPower :=
  (kindAt nodes i).bind (·.power?)

theorem Develops.kind_at {nodes nodes' : Array Node} (develops : Develops nodes nodes') {i : Nat}
    (low : i < nodes.size) : kindAt nodes' i = kindAt nodes i := by
  have found := Array.getElem?_eq_getElem low
  obtain ⟨n', found', kind, -⟩ := develops i _ found
  simp only [kindAt, found, found', Option.map_some, kind]

theorem Develops.power_at {nodes nodes' : Array Node} (develops : Develops nodes nodes') {i : Nat}
    (low : i < nodes.size) : powerAt nodes' i = powerAt nodes i := by
  rw [powerAt, powerAt, develops.kind_at low]

def InStatic (nodes : Array Node) (i : Nat) : Prop :=
  ∃ (p : Nat) (m : Node), nodes[p]? = some m ∧ m.kind = .staticVariables ∧ i ∈ m.children

theorem InStatic.develops {nodes nodes' : Array Node} {i : Nat} (inside : InStatic nodes i)
    (develops : Develops nodes nodes') : InStatic nodes' i := by
  obtain ⟨p, m, found, kind, member⟩ := inside
  obtain ⟨m', found', kind', -, children⟩ := develops p m found
  exact ⟨p, m', found', kind'.trans kind, children ▸ member⟩

def tokensIn (tokens : Array Token) (span : Span) : List Token :=
  tokens.toList.filter fun t => span.start ≤ t.span.start && t.span.start < span.stop

def StatementText (tokens : Array Token) (span : Span) (text : List Token) : Prop :=
  tokensIn tokens span = text ∨
    ∃ mark : Token, mark.kind = .semicolon ∧ tokensIn tokens span = text ++ [mark]

/-- A node has the operands that its operator asks for. The variables of a `static` statement, of
which those in `loose` have not got their statement yet, may have any value. -/
structure Lawful (tokens : Array Token) (loose : List Nat) (nodes : Array Node) (i : Nat)
    (n : Node) : Prop where
  known : ∀ op, n.kind.operator? = some op → (bindingPower? op).isSome ∧ n.kind = binaryKind op
  signed : ∀ op, n.kind = .unary op → (unaryKind? op).isSome
  last : ∀ p q c, n.kind.power? = some p → n.children.getLast? = some c →
    powerAt nodes c = some q → p.right ≤ q.left
  first : ∀ p q c, n.kind.power? = some p → n.children.head? = some c →
    kindAt nodes c ≠ some .instanceOf → powerAt nodes c = some q → p.left < q.right
  operand : ∀ k q c, n.kind.operandPower? = some k → c ∈ n.children →
    powerAt nodes c = some q → k ≤ q.left
  value : ∀ op q c, n.kind = .assignment op → n.children.getLast? = some c →
    powerAt nodes c = some q → assignedPower ≤ q.left ∨ InStatic nodes i ∨ i ∈ loose
  chain : n.kind = .expressionStatement → ∀ text words, StatementText tokens n.span text →
    text.map Token.word? = words.map some → isFlat words →
    ∃ c e, n.children = [c] ∧ Denotes nodes c e ∧ e.reading = words

namespace Lawful

variable {tokens : Array Token} {loose : List Nat} {nodes nodes' : Array Node} {i : Nat}
  {n n' : Node}

theorem of_free (free : n.kind.isFree) : Lawful tokens loose nodes i n where
  known op operator := by cases h : n.kind <;> simp_all [NodeKind.isFree, NodeKind.operator?]
  signed op kind := by rw [kind] at free; cases free
  last p _ _ power := by rw [power_of_free free] at power; cases power
  first p _ _ power := by rw [power_of_free free] at power; cases power
  operand k _ _ power := by cases h : n.kind <;> simp_all [NodeKind.isFree, NodeKind.operandPower?]
  value op _ _ kind := by rw [kind] at free; cases free
  chain kind := by rw [kind] at free; cases free

theorem of_plain (plain : n.kind.isPlain) : Lawful tokens loose nodes i n :=
  of_free (NodeKind.free_of_plain plain)

/-- The operands of an operator read with its powers. -/
theorem of_operator {kind : NodeKind} {p : BindingPower} {left right : Nat} {children : List Nat}
    {span : Span} (made : ∀ op, kind.operator? = some op → kind = binaryKind op)
    (power : kind.power? = some p) (head : children.head? = some left)
    (getLast : children.getLast? = some right)
    (behind : ∀ q, powerAt nodes right = some q → p.right ≤ q.left)
    (ahead : ∀ q, kindAt nodes left ≠ some .instanceOf → powerAt nodes left = some q →
      p.left < q.right) :
    Lawful tokens loose nodes i ⟨kind, span, none, children, none, []⟩ where
  known op operator := by
    have operator : kind.operator? = some op := operator
    refine ⟨?_, made op operator⟩
    have known : kind.power? = bindingPower? op := by
      cases kind <;> first | (cases operator; rfl) | cases operator
    rw [← known, power]
    rfl
  signed _ isUnary := by
    cases isUnary
    cases power
  last p' q c known last power' := by
    have same : p' = p := Option.some.inj (known.symm.trans power)
    have only : c = right := Option.some.inj (last.symm.trans getLast)
    exact same ▸ behind q (only ▸ power')
  first p' q c known first other power' := by
    have same : p' = p := Option.some.inj (known.symm.trans power)
    have only : c = left := Option.some.inj (first.symm.trans head)
    exact same ▸ ahead q (only ▸ other) (only ▸ power')
  operand k _ _ asked := by
    cases kind with
    | unary | cast => cases power
    | _ => cases asked
  value _ _ _ isAssignment := by
    cases isAssignment
    cases power
  chain isStatement := by
    cases isStatement
    cases power

/-- The value of an assignment read with its power. -/
theorem of_assignment {op : String} {value target : Nat} {span : Span}
    (power : ∀ q, powerAt nodes value = some q → assignedPower ≤ q.left) :
    Lawful tokens loose nodes i ⟨.assignment op, span, none, [target, value], none, []⟩ where
  known _ no := nomatch no
  signed _ no := nomatch no
  last _ _ _ no := nomatch no
  first _ _ _ no := nomatch no
  operand _ _ _ no := nomatch no
  value _ q c _ last power' := by
    have same : value = c := by simpa using last
    exact .inl (power q (same ▸ power'))
  chain no := nomatch no

/-- The value of a variable that waits for its `static` statement. -/
theorem of_loose {op : String} {children : List Nat} {span : Span} (waits : i ∈ loose) :
    Lawful tokens loose nodes i ⟨.assignment op, span, none, children, none, []⟩ where
  known _ no := nomatch no
  signed _ no := nomatch no
  last _ _ _ no := nomatch no
  first _ _ _ no := nomatch no
  operand _ _ _ no := nomatch no
  value _ _ _ _ _ _ := .inr (.inr waits)
  chain no := nomatch no

/-- A statement whose expression reads like its text. -/
theorem of_statement {value : Nat} {span : Span}
    (chain : ∀ text words, StatementText tokens span text → text.map Token.word? = words.map some →
      isFlat words → ∃ e, Denotes nodes value e ∧ e.reading = words) :
    Lawful tokens loose nodes i ⟨.expressionStatement, span, none, [value], none, []⟩ where
  known _ no := nomatch no
  signed _ no := nomatch no
  last _ _ _ no := nomatch no
  first _ _ _ no := nomatch no
  operand _ _ _ no := nomatch no
  value _ _ _ no := nomatch no
  chain _ text words spans spelled flat := by
    obtain ⟨e, denotes, reading⟩ := chain text words spans spelled flat
    exact ⟨value, e, rfl, denotes, reading⟩

/-- The operand of a prefix read with its power. -/
theorem of_sign {kind : NodeKind} {least operand : Nat} {span : Span}
    (asks : kind.isPlain ∨ kind.operandPower? = some least)
    (power : ∀ q, powerAt nodes operand = some q → least ≤ q.left) :
    Lawful tokens loose nodes i ⟨kind, span, none, [operand], none, []⟩ := by
  rcases asks with plain | asks
  · exact .of_plain plain
  have signed : ∀ op, kind = .unary op → (unaryKind? op).isSome := by
    rintro op rfl
    obtain ⟨known, here, -⟩ := Option.map_eq_some_iff.mp asks
    exact Option.isSome_iff_exists.mpr ⟨known, here⟩
  have holds : ∀ k q c, kind.operandPower? = some k → c ∈ [operand] →
      powerAt nodes c = some q → k ≤ q.left := by
    intro k q c asked member power'
    have same : k = least := Option.some.inj (asked.symm.trans asks)
    have only : c = operand := List.mem_singleton.mp member
    exact same ▸ power q (only ▸ power')
  cases kind with
  | unary | cast =>
    exact {
      known := fun _ no => nomatch no
      signed := signed
      last := fun _ _ _ no => nomatch no
      first := fun _ _ _ no => nomatch no
      operand := holds
      value := fun _ _ _ no => nomatch no
      chain := fun no => nomatch no }
  | _ => cases asks

theorem mono {loose' : List Nat} (lawful : Lawful tokens loose nodes i n)
    (le : ∀ j ∈ loose, j ∈ loose') : Lawful tokens loose' nodes i n :=
  { lawful with
    value := fun op q c kind last power =>
      (lawful.value op q c kind last power).imp_right fun excused => excused.imp_right (le i) }

theorem settle {settled : List Nat} (lawful : Lawful tokens (settled ++ loose) nodes i n)
    (inside : ∀ j ∈ settled, InStatic nodes j) : Lawful tokens loose nodes i n :=
  { lawful with
    value := fun op q c kind last power => by
      refine (lawful.value op q c kind last power).imp_right fun excused => ?_
      rcases excused with inside | waits
      · exact .inl inside
      · exact (List.mem_append.mp waits).imp_left (inside i) }

theorem develops (lawful : Lawful tokens loose nodes i n) (develops : Develops nodes nodes')
    (low : ∀ c ∈ n.children, c < nodes.size) (kind : n'.kind = n.kind) (span : n'.span = n.span)
    (children : n'.children = n.children) : Lawful tokens loose nodes' i n' where
  known := kind ▸ lawful.known
  signed := kind ▸ lawful.signed
  last p q c power last power' := by
    rw [kind] at power
    rw [children] at last
    rw [develops.power_at (low c (List.mem_of_getLast? last))] at power'
    exact lawful.last p q c power last power'
  first p q c power head other power' := by
    rw [kind] at power
    rw [children] at head
    have low := low c (List.mem_of_head? head)
    rw [develops.kind_at low] at other
    rw [develops.power_at low] at power'
    exact lawful.first p q c power head other power'
  operand k q c power member power' := by
    rw [kind] at power
    rw [children] at member
    rw [develops.power_at (low c member)] at power'
    exact lawful.operand k q c power member power'
  value op q c isAssignment last power' := by
    rw [kind] at isAssignment
    rw [children] at last
    rw [develops.power_at (low c (List.mem_of_getLast? last))] at power'
    refine (lawful.value op q c isAssignment last power').imp_right fun excused => ?_
    exact excused.imp_left fun inside => inside.develops develops
  chain isStatement text words spans spelled flat := by
    rw [kind] at isStatement
    rw [span] at spans
    obtain ⟨c, e, only, denotes, same⟩ := lawful.chain isStatement text words spans spelled flat
    exact ⟨c, e, children.trans only, denotes.develops develops, same⟩

/-- Nodes keep their operands when a new one is put above some of them. -/
theorem adopt {kind : NodeKind} {span : Span} {children : List Nat} (linked : Linked nodes)
    (low : ∀ c ∈ children, c < nodes.size)
    (lawful : ∀ i n, nodes[i]? = some n → Lawful tokens loose nodes i n)
    (law : Lawful tokens loose nodes nodes.size ⟨kind, span, none, children, none, []⟩)
    (found : (PhpAnalyser.adopt nodes kind span children)[i]? = some n) :
    Lawful tokens loose (PhpAnalyser.adopt nodes kind span children) i n := by
  rcases adopt_cases found with ⟨rfl, rfl⟩ | ⟨old, -, here, rfl⟩
  · exact law.develops adopt_develops low rfl rfl rfl
  · refine (lawful i old here).develops adopt_develops (linked.children_lt here) ?_ ?_ ?_ <;>
      split <;> rfl

end Lawful

end PhpAnalyser
