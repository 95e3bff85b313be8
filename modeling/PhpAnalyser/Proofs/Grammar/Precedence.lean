import PhpAnalyser.Proofs.Grammar.Outcome
import PhpAnalyser.Proofs.Syntax.Chain
/-!
The operators of an accepted text hold their operands as the table of operators says.
-/
namespace PhpAnalyser

/-- What the table says of the nodes of a tree: an operator has its powers there, an operator below
another one is held by it, and a chain of variables has the one tree that its operators ask for. -/
structure FollowsTable (tokens : Array Token) (nodes : Array Node) : Prop where
  known : ∀ (i : Nat) (n : Node) (op : String), nodes[i]? = some n → n.kind.operator? = some op →
    (bindingPower? op).isSome ∧ n.kind = binaryKind op
  last : ∀ (i c : Nat) (n m : Node) (p q : BindingPower), nodes[i]? = some n →
    n.kind.power? = some p → n.children.getLast? = some c → nodes[c]? = some m →
    m.kind.power? = some q → p.right ≤ q.left
  first : ∀ (i c : Nat) (n m : Node) (p q : BindingPower), nodes[i]? = some n →
    n.kind.power? = some p → n.children.head? = some c → nodes[c]? = some m →
    m.kind ≠ .instanceOf → m.kind.power? = some q → p.left < q.right
  sign : ∀ (i c : Nat) (n m : Node) (op : String), nodes[i]? = some n → n.kind = .unary op →
    c ∈ n.children → nodes[c]? = some m → m.kind.power?.isSome →
    m.kind = .binary "**" ∨ op = "!" ∧ m.kind = .instanceOf
  cast : ∀ (i c : Nat) (n m : Node) (target : String), nodes[i]? = some n →
    n.kind = .cast target → c ∈ n.children → nodes[c]? = some m → m.kind.power?.isSome →
    m.kind = .binary "**"
  value : ∀ (i c : Nat) (n m : Node) (op : String), nodes[i]? = some n →
    n.kind = .assignment op → n.children.getLast? = some c → nodes[c]? = some m →
    m.kind.isLogical → InStatic nodes i
  chain : ∀ (i : Nat) (n : Node) (text : List Token) (words : List Word), nodes[i]? = some n →
    n.kind = .expressionStatement → StatementText tokens n.span text →
    text.map Token.word? = words.map some → isFlat words →
    ∃ c e, n.children = [c] ∧ Denotes nodes c e ∧ e.reading = words ∧ e.Obeys ∧
      ∀ e' : Chain, e'.reading = words → e'.Obeys → e' = e

section Nodes

variable {tokens : Array Token} {nodes : Array Node} {i c k : Nat} {n m : Node}

/-- An operand read with the power of a negation or a sign is no operator but a few. -/
theorem tight_kind (lawful : Lawful tokens [] nodes c m) (isOperator : m.kind.power?.isSome)
    (tight : ∀ q, m.kind.power? = some q → k ≤ q.left) (least : notOperandPower ≤ k) :
    m.kind = .binary "**" ∨ m.kind = .instanceOf ∧ k < unaryOperandPower := by
  obtain ⟨q, power⟩ := Option.isSome_iff_exists.mp isOperator
  have le := tight q power
  cases operator : m.kind.operator? with
  | none =>
    have ternary : q = ternaryPower := by
      cases kind : m.kind <;> simp_all [NodeKind.power?, NodeKind.operator?]
    rw [ternary] at le
    exact absurd (Nat.le_trans least le) (by decide)
  | some op =>
    obtain ⟨isKnown, made⟩ := lawful.known op operator
    obtain ⟨p, known⟩ := Option.isSome_iff_exists.mp isKnown
    have same : p = q := by
      rw [made, binary_kind_power known] at power
      exact Option.some.inj power
    rw [made]
    rcases tight_operator known (same ▸ Nat.le_trans least le) with rfl | ⟨rfl, lt⟩
    · exact .inl rfl
    · exact .inr ⟨rfl, Nat.lt_of_le_of_lt le (same ▸ lt)⟩

theorem unary_least {op : String} (isSign : (unaryKind? op).isSome) :
    ∃ k, NodeKind.operandPower? (.unary op) = some k ∧ notOperandPower ≤ k ∧
      (k < unaryOperandPower → op = "!") := by
  obtain ⟨⟨kind, k⟩, known⟩ := Option.isSome_iff_exists.mp isSign
  refine ⟨k, by rw [NodeKind.operandPower?, known]; rfl, ?_⟩
  unfold unaryKind? at known
  split at known
  next same =>
    cases known
    exact ⟨by decide, fun _ => same⟩
  next =>
    have tight : k = unaryOperandPower := by
      split at known
      · cases known
        rfl
      split at known
      · cases known
        rfl
      split at known
      · cases known
        rfl
      · cases known
    rw [tight]
    exact ⟨by decide, fun lt => absurd lt (by decide)⟩

theorem logical_power (isLogical : m.kind.isLogical) :
    ∃ q, m.kind.power? = some q ∧ q.left < assignedPower := by
  cases kind : m.kind with
  | logicalOr => exact ⟨_, rfl, by decide⟩
  | logicalAnd => exact ⟨_, rfl, by decide⟩
  | logicalXor => exact ⟨_, rfl, by decide⟩
  | _ => simp [kind, NodeKind.isLogical] at isLogical

theorem follows_table (lawful : ∀ i n, nodes[i]? = some n → Lawful tokens [] nodes i n) :
    FollowsTable tokens nodes where
  known i n op found := (lawful i n found).known op
  last i c n m p q found power getLast found' power' :=
    (lawful i n found).last p q c power getLast (power_at_of_eq found' ▸ power')
  first i c n m p q found power head found' other power' := by
    refine (lawful i n found).first p q c power head ?_ (power_at_of_eq found' ▸ power')
    rw [kind_at_of_eq found']
    exact fun same => other (Option.some.inj same)
  sign i c n m op found kind member found' isOperator := by
    have here := lawful i n found
    obtain ⟨k, asked, least, tight⟩ := unary_least (here.signed op kind)
    have holds : ∀ q, m.kind.power? = some q → k ≤ q.left := fun q power =>
      here.operand k q c (kind ▸ asked) member (power_at_of_eq found' ▸ power)
    exact (tight_kind (lawful c m found') isOperator holds least).imp_right
      fun test => ⟨tight test.2, test.1⟩
  cast i c n m target found kind member found' isOperator := by
    have holds : ∀ q, m.kind.power? = some q → unaryOperandPower ≤ q.left := fun q power =>
      (lawful i n found).operand _ q c (kind ▸ rfl) member (power_at_of_eq found' ▸ power)
    exact (tight_kind (lawful c m found') isOperator holds (by decide)).resolve_right
      fun test => Nat.lt_irrefl _ test.2
  value i c n m op found kind getLast found' isLogical := by
    obtain ⟨q, power, lt⟩ := logical_power isLogical
    have holds := (lawful i n found).value op q c kind getLast (power_at_of_eq found' ▸ power)
    rcases holds with le | inside | waits
    · exact absurd lt (Nat.not_lt_of_le le)
    · exact inside
    · cases waits
  chain i n text words found kind spans spelled flat := by
    obtain ⟨c, e, children, denotes, reading⟩ :=
      (lawful i n found).chain kind text words spans spelled flat
    have obeys := denotes.obeys lawful
    exact ⟨c, e, children, denotes, reading, obeys, fun e' reading' obeys' =>
      Chain.unique obeys' obeys (reading'.trans reading.symm)⟩

end Nodes

/-- The tree of an accepted text is the one that the table of operators asks for. -/
theorem parse_follows_table {source : String} {file : Nat} {t : SyntaxTree}
    (accepted : parse source file = .ok t) : FollowsTable (scan source).toArray t.nodes := by
  obtain ⟨s, nodes, complete, none, tokens⟩ := complete_of_accepted accepted
  rw [nodes, ← tokens]
  exact follows_table (complete.lawful none)

theorem parse_follows_table_sum :
    ∃ t, parse "<?php $a + $b * $c ** $d ?: $e;" 0 = .ok t ∧
      FollowsTable (scan "<?php $a + $b * $c ** $d ?: $e;").toArray t.nodes := by
  have accepted : (parse "<?php $a + $b * $c ** $d ?: $e;" 0).isOk = true := by decide +kernel
  cases same : parse "<?php $a + $b * $c ** $d ?: $e;" 0 with
  | ok t => exact ⟨t, rfl, parse_follows_table same⟩
  | error errors => simp [same, Except.isOk, Except.toBool] at accepted

end PhpAnalyser
