import PhpAnalyser.Proofs.Production.Judgement
/-!
What a judgement says of the readers that the productions are put together from.
-/
namespace PhpAnalyser.Judgement

namespace Says

variable {J : Judgement} {scope : Option TypeScope} {front given : Prop} {n m : Nat}
  {p q : Parser α} {v : Verdict J.exact α} {P Q : α → Prop} {N : α → Nat}

theorem give {a b : α} (same : v.same a b) (holds : given → v.holds a) (all : n = v.nodes a) :
    J.Says scope front given n (pure a) (pure b) v :=
  J.says_pure same holds fun _ _ => all

theorem pure {a b : α} (same : a = b) (holds : given → P a) (all : n = N a) :
    J.Says scope front given n (pure a) (pure b) (.of P N) :=
  give same holds all

theorem done {a : α} : J.Plain scope front given (Pure.pure a) (Pure.pure a) :=
  pure rfl (fun _ => trivial) rfl

theorem mono (said : J.Says scope front given n p q (.of P N)) (imp : ∀ a, P a → Q a) :
    J.Says scope front given n p q (.of Q N) :=
  J.says_holding (fun _ a _ _ => imp a) said

theorem any (said : J.Says scope front given n p q (.of P N)) :
    J.Says scope front given n p q (.of (fun _ => True) N) :=
  said.mono fun _ _ => trivial

theorem weaken {given' : Prop} (said : J.Says scope front given n p q v) (imp : given' → given) :
    J.Says scope front given' n p q v :=
  J.says_weaken (fun here _ => here) imp said

theorem somewhere (said : J.Says scope False given n p q v) : J.Says scope front given n p q v :=
  J.says_weaken False.elim id said

/-- Of the nodes at hand, `m` are left to what is read first. -/
theorem pass {f g : α → Parser β} {w : Verdict J.exact β}
    (first : J.Says scope front given m p q (.of P N))
    (second : ∀ a, J.Says scope False (given ∧ P a) (n + N a) (f a) (g a) w) :
    J.Says scope front given (n + m) (p >>= f) (q >>= g) w := by
  refine J.says_bind first ?_
  rintro a _ rfl
  exact second a

theorem bind {f g : α → Parser β} {w : Verdict J.exact β}
    (first : J.Says scope front given 0 p q (.of P N))
    (second : ∀ a, J.Says scope False (given ∧ P a) (n + N a) (f a) (g a) w) :
    J.Says scope front given n (p >>= f) (q >>= g) w :=
  pass first second

/-- What is read first leaves no node, and nothing needs to be known of it. -/
theorem then_ {f g : α → Parser β} {w : Verdict J.exact β}
    (first : J.Says scope front given 0 p q (.of P fun _ => 0))
    (second : ∀ a, J.Says scope False given n (f a) (g a) w) :
    J.Says scope front given n (p >>= f) (q >>= g) w :=
  bind first fun a => (second a).weaken And.left

theorem behind_token {p q : Parser Token} {Q : Token → Prop} {f g : Token → Parser β}
    {w : Verdict J.exact β} (first : J.Says scope front given 0 p q (J.token Q))
    (second : ∀ a b, J.tokens a b → J.Says scope False given n (f a) (g b) w) :
    J.Says scope front given n (p >>= f) (q >>= g) w :=
  J.says_bind (n := n) first fun a b same => (second a b same).weaken And.left

theorem behind_span {p q : Parser Span} {f g : Span → Parser β} {w : Verdict J.exact β}
    (first : J.Says scope front given 0 p q J.place)
    (second : ∀ a b, J.spans a b → J.Says scope False given n (f a) (g b) w) :
    J.Says scope front given n (p >>= f) (q >>= g) w :=
  J.says_bind (n := n) first fun a b same => (second a b same).weaken And.left

theorem map {f : α → β} {Q : β → Prop} {N : β → Nat}
    (said : J.Says scope front given n p q (.of (fun a => Q (f a)) fun a => N (f a))) :
    J.Says scope front given n (f <$> p) (f <$> q) (.of Q N) := by
  rw [← bind_pure_comp, ← bind_pure_comp, ← Nat.zero_add n]
  exact said.pass fun a => pure rfl And.right (Nat.zero_add _)

theorem discard (said : J.Says scope front given 0 p q (.of P fun _ => 0)) :
    J.Plain scope front given (discard p) (discard q) :=
  map said.any

theorem stuck : J.Says scope front given n (Parser.stuck : Parser α) Parser.stuck v :=
  J.says_stuck

theorem ite {c c' : Prop} [Decidable c] [Decidable c'] {p' q' : Parser α} (same : c ↔ c')
    (yes : J.Says scope front given n p q v) (no : J.Says scope front given n p' q' v) :
    J.Says scope front given n (if c then p else p') (if c' then q else q') v := by
  by_cases holds : c
  · rw [if_pos holds, if_pos (same.mp holds)]
    exact yes
  · rw [if_neg holds, if_neg (mt same.mpr holds)]
    exact no

section Look

variable {w : Verdict J.exact β}

theorem remaining {f g : Nat → Parser β} (next : ∀ k, J.Says scope False given n (f k) (g k) w) :
    J.Says scope front given n (Parser.remaining >>= f) (Parser.remaining >>= g) w :=
  J.says_look (f := fun s => f s.stream.remaining) (g := fun s => g s.stream.remaining)
    fun s t same _ _ => by
      rw [same.remaining]
      exact (next _).somewhere

theorem current {f g : Token → Parser β} (next : ∀ a b, J.tokens a b → J.facts.held a →
      (front → ¬J.exact → a.kind ≠ .eof) → J.Says scope (a.kind ≠ .eof) given n (f a) (g b) w) :
    J.Says scope front given n (Parser.current >>= f) (Parser.current >>= g) w :=
  J.says_look (f := fun s => f s.stream.current) (g := fun s => g s.stream.current)
    fun _ _ same seen more => next _ _ same.current (J.facts.held_current seen) more

theorem ahead (k : Nat) {f g : Token → Parser β}
    (next : ∀ a b, J.tokens a b → J.Says scope front given n (f a) (g b) w) :
    J.Says scope front given n (Parser.ahead k >>= f) (Parser.ahead k >>= g) w :=
  J.says_look (f := fun s => f (s.stream.peek k)) (g := fun s => g (s.stream.peek k))
    fun _ _ same _ more => J.says_weaken more id (next _ _ (same.peek k))

theorem check (kind : TokenKind) {f g : Bool → Parser β}
    (next : ∀ is, J.Says scope front given n (f is) (g is) w) :
    J.Says scope front given n (Parser.check kind >>= f) (Parser.check kind >>= g) w :=
  J.says_look (f := fun s => f (decide (s.stream.current.kind = kind)))
    (g := fun s => g (decide (s.stream.current.kind = kind))) fun _ _ same _ more => by
      rw [same.current.kind] at more ⊢
      exact J.says_weaken more id (next _)

theorem checkOperator (op : String) {f g : Bool → Parser β}
    (next : ∀ is, J.Says scope front given n (f is) (g is) w) :
    J.Says scope front given n (Parser.checkOperator op >>= f) (Parser.checkOperator op >>= g) w :=
  J.says_look (f := fun s => f (s.stream.current.isOperator op))
    (g := fun s => g (s.stream.current.isOperator op)) fun _ _ same _ more => by
      rw [same.current.is_operator]
      exact J.says_weaken more id (next _)

theorem node {i : Nat} {f g : Node → Parser β} (next : ∀ x y, x.kind = y.kind →
      J.spans x.span y.span → J.Says scope front given n (f x) (g y) w) :
    J.Says scope front given n (Parser.nodeAt i >>= f) (Parser.nodeAt i >>= g) w := by
  rw [Parser.nodeAt, bind_assoc, bind_assoc]
  refine J.says_look fun s t same _ more => J.says_weaken more id ?_
  rcases same.node i with ⟨here, there⟩ | ⟨x, y, here, there, kind, span⟩
  · rw [here, there]
    exact stuck
  · rw [here, there]
    exact next x y kind span

theorem kindOf (i : Nat) {f g : NodeKind → Parser β}
    (next : ∀ kind, J.Says scope front given n (f kind) (g kind) w) :
    J.Says scope front given n (Parser.kindOf i >>= f) (Parser.kindOf i >>= g) w := by
  rw [Parser.kindOf, bind_assoc, bind_assoc]
  refine node fun x y kind _ => ?_
  rw [pure_bind, pure_bind, kind]
  exact next y.kind

end Look

section Loops

variable {step step' : β → Parser (ForInStep β)} {I Q : β → Prop} {N : β → Nat}

/-- The value of a loop says what is known and how many nodes are at hand. -/
theorem iterate (each : ∀ b, J.Says scope False (given ∧ I b) (N b) (step b) (step' b)
      (.of (Leaves I Q) fun r => N r.value)) (fuel : Nat) (b : β) :
    J.Says scope False (given ∧ I b) (N b) (Parser.iterate step fuel b)
      (Parser.iterate step' fuel b) (.of Q N) := by
  induction fuel generalizing b with
  | zero => exact stuck
  | succ fuel ih =>
    rw [← Nat.zero_add (N b)]
    refine pass (each b) fun r => ?_
    rw [Nat.zero_add]
    cases r with
    | done b' => exact pure rfl And.right rfl
    | yield b' => exact (ih b').weaken fun known => ⟨known.1.1, known.2⟩

theorem repeatFrom {b : β} (start : given → I b) (each : ∀ b, J.Says scope False (given ∧ I b)
      (N b) (step b) (step' b) (.of (Leaves I Q) fun r => N r.value)) :
    J.Says scope front given (N b) (Parser.repeatFrom b step) (Parser.repeatFrom b step')
      (.of Q N) :=
  remaining fun _ => (iterate each _ b).weaken fun known => ⟨known, start known⟩

/-- A step that makes a node with which the loop goes on. -/
theorem goes {p q : Parser Nat} {I Q : Nat → Prop}
    (one : J.Says scope front given n p q (.of I fun _ => 1)) :
    J.Says scope front given n (do return ForInStep.yield (← p)) (do return ForInStep.yield (← q))
      (.of (Leaves I Q) fun _ => 1) := by
  rw [← Nat.zero_add n]
  exact pass one fun _ => pure rfl And.right rfl

/-- A step that makes the last node. -/
theorem ends {p q : Parser Nat} {I Q : Nat → Prop}
    (one : J.Says scope front given n p q (.of Q fun _ => 1)) :
    J.Says scope front given n (do return ForInStep.done (← p)) (do return ForInStep.done (← q))
      (.of (Leaves I Q) fun _ => 1) := by
  rw [← Nat.zero_add n]
  exact pass one fun _ => pure rfl And.right rfl

/-- A loop of which nothing is asked. -/
theorem repeated {b : β} (each : ∀ b, J.Plain scope False given (step b) (step' b)) :
    J.Plain scope front given (Parser.repeatFrom b step) (Parser.repeatFrom b step') :=
  repeatFrom (I := fun _ => True) (N := fun _ => 0) (fun _ => trivial) fun b =>
    ((each b).weaken And.left).mono fun r _ => by cases r <;> trivial

end Loops

theorem skip : J.Plain scope front given Parser.skip Parser.skip := J.says_skip

theorem advance : J.Says scope front given 0 Parser.advance Parser.advance
    (J.token fun _ => True) :=
  current fun _ _ same held _ => then_ skip fun _ => give same (fun _ => ⟨held, trivial⟩) rfl

theorem eat (kind : TokenKind) :
    J.Plain scope front given (Parser.eat kind) (Parser.eat kind) :=
  check kind fun _ => .ite .rfl (then_ skip fun _ => done) done

theorem eatOperator (op : String) :
    J.Plain scope front given (Parser.eatOperator op) (Parser.eatOperator op) :=
  checkOperator op fun _ => .ite .rfl (then_ skip fun _ => done) done

theorem unexpected (expected : List String) :
    J.Says scope front given n (Parser.unexpected expected : Parser α)
      (Parser.unexpected expected) v := by
  refine current fun a b same _ _ => ?_
  dsimp only
  rw [same.kind, same.text]
  refine J.says_throw ?_ (J.tokens_span same)
  split <;> rfl

theorem expect (kind : TokenKind) (expected : String) :
    J.Says scope front given 0 (Parser.expect kind expected) (Parser.expect kind expected)
      (J.token fun token => token.kind = kind) := by
  have said : J.Says scope front given 0 (Parser.expect kind expected)
      (Parser.expect kind expected) (J.token fun _ => True) :=
    check kind fun _ => .ite .rfl advance (unexpected _)
  refine J.says_holding (fun s token s' run known => ⟨known.1, ?_⟩) said
  obtain ⟨rfl, is, -⟩ := Succeeds.expect token s' run
  exact is

/-- A token of which nothing is kept. -/
theorem past (kind : TokenKind) (expected : String) :
    J.Plain scope front given (Functor.discard (Parser.expect kind expected))
      (Functor.discard (Parser.expect kind expected)) := by
  change J.Plain scope front given ((fun _ => ()) <$> Parser.expect kind expected)
    ((fun _ => ()) <$> Parser.expect kind expected)
  rw [← bind_pure_comp]
  exact behind_token (expect kind expected) fun _ _ _ => done

theorem expectOperator (op expected : String) :
    J.Plain scope front given (Parser.expectOperator op expected)
      (Parser.expectOperator op expected) :=
  checkOperator op fun _ => .ite .rfl skip (unexpected _)

theorem spanFrom {a b : Span} (same : J.spans a b) :
    J.Says scope front given 0 (Parser.spanFrom a) (Parser.spanFrom b) J.place :=
  J.says_look fun _ _ view _ _ => give (J.spans_merge same view.last) (fun _ => trivial) rfl

theorem spanFromNode (i : Nat) :
    J.Says scope front given 0 (Parser.spanFromNode i) (Parser.spanFromNode i) J.place :=
  node fun _ _ _ span => spanFrom span

theorem finishStatement {a b : Span} (same : J.spans a b) :
    J.Says scope front given 0 (Parser.finishStatement a) (Parser.finishStatement b) J.place := by
  refine current fun x y token _ _ => ?_
  rw [token.kind]
  refine .ite .rfl (then_ skip fun _ => spanFrom same) (.ite .rfl ?_ (unexpected _))
  exact behind_span (spanFrom same) fun _ _ span =>
    then_ skip fun _ => give span (fun _ => trivial) rfl

/-- The end of a statement, of which nothing is kept. -/
theorem pastStatement {a b : Span} (same : J.spans a b) :
    J.Plain scope front given (Functor.discard (Parser.finishStatement a))
      (Functor.discard (Parser.finishStatement b)) := by
  change J.Plain scope front given ((fun _ => ()) <$> Parser.finishStatement a)
    ((fun _ => ()) <$> Parser.finishStatement b)
  rw [← bind_pure_comp, ← bind_pure_comp]
  exact behind_span (finishStatement same) fun _ _ _ => done

section Nodes

variable {kind : NodeKind} {a b : Span} {ids : List Nat} {base k : Nat}

/-- A node that may refer to types. -/
theorem finish (bound : J.facts.bound scope kind)
    (names : given → ∀ name ∈ kind.typeNames, J.facts.fine name) (same : J.spans a b) (room : k < 6)
    (low : given → J.All (kind.scopeBelow scope) k ids)
    (all : n = ids.length + (if kind.isNamedByExpression then 1 else 0)) :
    J.One scope front given n (k + 1) (Parser.finish kind a ids) (Parser.finish kind b ids) :=
  behind_span (spanFrom same) fun _ _ span =>
    J.says_push bound names span room low fun _ _ => all

theorem wrap (takes : kind.takesUp = true) (room : k < 6) (first : given → J.node scope (k + 1) base)
    (rest : given → J.All scope k ids) (all : n = ids.length + 1) :
    J.One scope front given n (k + 1) (Parser.wrap kind base ids) (Parser.wrap kind base ids) :=
  behind_span (spanFromNode base) fun _ _ span =>
    J.says_take takes span room first rest fun _ _ => all

section Common

variable (common : kind.isCommon = true)
include common

theorem pushCommon (same : J.spans a b) (room : k < 6) (low : given → J.All scope k ids)
    (all : n = ids.length) :
    J.One scope front given n (k + 1) (Parser.push kind a ids) (Parser.push kind b ids) := by
  simp only [NodeKind.isCommon, NodeKind.isQuiet, Bool.and_eq_true, List.isEmpty_iff,
    Bool.not_eq_true'] at common
  obtain ⟨inner, none, unnamed⟩ := common
  refine J.says_push (J.facts.bound_of ?_) (fun _ => by simp [none]) same room ?_ fun _ _ => ?_
  · rintro reference rfl
    cases inner
  · rwa [NodeKind.scope_of_inner inner]
  · simp [all, unnamed]

theorem finishCommon (same : J.spans a b) (room : k < 6) (low : given → J.All scope k ids)
    (all : n = ids.length) :
    J.One scope front given n (k + 1) (Parser.finish kind a ids) (Parser.finish kind b ids) :=
  behind_span (spanFrom same) fun _ _ span => pushCommon common span room low all

theorem wrapCommon (room : k < 6) (low : given → J.All scope k (base :: ids))
    (all : n = ids.length + 1) :
    J.One scope front given n (k + 1) (Parser.wrap kind base ids) (Parser.wrap kind base ids) :=
  behind_span (spanFromNode base) fun _ _ span => pushCommon common span room low all

theorem pushStatement (same : J.spans a b) (room : k < 6) (low : given → J.All scope k ids)
    (all : n = ids.length) :
    J.One scope front given n (k + 1) (Parser.pushStatement kind a ids)
      (Parser.pushStatement kind b ids) :=
  behind_span (finishStatement same) fun _ _ span => pushCommon common span room low all

end Common

end Nodes

section Lists

variable {k : Nat}

theorem onlyIf {p q : Parser Nat} (wanted : Bool) (one : J.One scope front given 0 k p q) :
    J.Many scope front given k (Parser.onlyIf wanted p) (Parser.onlyIf wanted q) :=
  .ite .rfl (bind one fun _ => pure rfl (fun known => by simp [known.2]) rfl)
    (pure rfl (fun _ => all_nil) rfl)

/-- A loop that collects nodes. -/
theorem collect {step step' : List Nat → Parser (ForInStep (List Nat))}
    (each : ∀ ids, J.Says scope False (given ∧ J.All scope k ids) ids.length (step ids) (step' ids)
      (.of (Leaves (J.All scope k) (J.All scope k)) fun r => r.value.length)) :
    J.Many scope front given k (Parser.repeatFrom [] step) (Parser.repeatFrom [] step') :=
  repeatFrom (N := List.length) (fun _ => all_nil) each

variable {p q : Parser Nat} {ids : List Nat}

/-- One more item of a list, which goes on behind a comma. -/
theorem behindItem (known : given → J.All scope k ids) (one : J.One scope front given 0 k p q) :
    J.Says scope front given ids.length
      (do
        let items := ids ++ [← p]
        if ← Parser.eat .comma then return .yield items else return .done items)
      (do
        let items := ids ++ [← q]
        if ← Parser.eat .comma then return .yield items else return .done items)
      (.of (Leaves (J.All scope k) (J.All scope k)) fun r => r.value.length) := by
  refine bind one fun i => then_ (eat .comma) fun _ => ?_
  have more (now : given ∧ J.node scope k i) : J.All scope k (ids ++ [i]) := by
    simp [known now.1, now.2]
  exact .ite .rfl (pure rfl more (by simp)) (pure rfl more (by simp))

theorem commaSeparated (each : ∀ {front}, J.One scope front given 0 k p q) :
    J.Many scope front given k (Parser.commaSeparated p) (Parser.commaSeparated q) :=
  collect fun _ => behindItem And.right (each.weaken And.left)

theorem commaList (close : TokenKind) (each : ∀ {front}, J.One scope front given 0 k p q) :
    J.Many scope front given k (Parser.commaList close p) (Parser.commaList close q) :=
  collect fun _ => check close fun _ => .ite .rfl (pure rfl And.right rfl)
    (behindItem And.right (each.weaken And.left))

end Lists

/-- Values with a property in common. -/
theorem commaSeparatedAll {p q : Parser α} {Q : α → Prop}
    (each : ∀ {front}, J.Says scope front given 0 p q (.of Q fun _ => 0)) :
    J.Says scope front given 0 (Parser.commaSeparated p) (Parser.commaSeparated q)
      (.of (fun items => ∀ a ∈ items, Q a) fun _ => 0) := by
  refine repeatFrom (I := fun items => ∀ a ∈ items, Q a) (N := fun _ => 0)
    (fun _ => by simp) fun items => ?_
  refine bind (each.weaken And.left) fun a => then_ (eat .comma) fun _ => ?_
  have more (known : (given ∧ ∀ b ∈ items, Q b) ∧ Q a) : ∀ b ∈ items ++ [a], Q b :=
    List.forall_mem_append.mpr ⟨known.1.2, List.forall_mem_singleton.mpr known.2⟩
  exact .ite .rfl (pure rfl more rfl) (pure rfl more rfl)

theorem setDocComment (i : Nat) (doc : Option String) :
    J.Plain scope front given (Parser.setDocComment i doc) (Parser.setDocComment i doc) :=
  J.says_doc i doc

theorem recovering {stop : Token → Bool} {k : Nat} {p q : Parser (List Nat)}
    (told : ∀ a b, J.tokens a b → stop a = stop b) (each : J.Many scope True given k p q) :
    J.Many scope front given k (Parser.recovering stop p) (Parser.recovering stop q) :=
  J.says_recovering told each

theorem withScope {inner : Option TypeScope} (fine : given → J.facts.FineScope inner)
    (said : J.Says inner front given n p q v) :
    J.Says scope front given n (Parser.withScope inner p) (Parser.withScope inner q) v :=
  J.says_within fine said

end Says

end PhpAnalyser.Judgement
