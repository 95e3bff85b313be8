import PhpAnalyser.Proofs.Scope.Judgement
/-!
How deep trees grow. A loop may put node after node around what it has read, but apart from that,
and from variable variables and namespaces in one another, a reader makes trees of bounded height.
The rules follow the ways in which readers are put together.
-/
namespace PhpAnalyser

/-- The node `p` only takes up its child `c`, or both are variable variables or namespaces. -/
def SyntaxTree.Prolongs (t : SyntaxTree) (p c : Nat) : Prop :=
  ((t.kind p).takesUp ∧ (t.children p).head? = some c) ∨
    (t.kind p = .variableVariable ∧ t.kind c = .variableVariable) ∨
    ((t.kind p).isNamespace ∧ (t.kind c).isNamespace)

instance (t : SyntaxTree) (p c : Nat) : Decidable (t.Prolongs p c) :=
  inferInstanceAs (Decidable (_ ∨ _))

/-- On each way down from a node there are at most so many nodes, itself among them, apart from
those that the node above them prolongs. -/
inductive Low (t : SyntaxTree) : Nat → Nat → Prop
  | node {height i : Nat} (along : ∀ c ∈ t.children i, t.Prolongs i c → Low t (height + 1) c)
      (below : ∀ c ∈ t.children i, ¬t.Prolongs i c → Low t height c) : Low t (height + 1) i

def AllLow (t : SyntaxTree) (height : Nat) (ids : List Nat) : Prop := ∀ i ∈ ids, Low t height i

section Low

variable {t : SyntaxTree} {height more i : Nat} {ids others : List Nat}

theorem Low.mono (low : Low t height i) (le : height ≤ more) : Low t more i := by
  induction low generalizing more with
  | node along below along_ih below_ih =>
    obtain ⟨more, rfl⟩ : ∃ k, more = k + 1 := ⟨more - 1, by omega⟩
    exact .node (fun c child prolongs => along_ih c child prolongs le)
      fun c child stands => below_ih c child stands (Nat.le_of_succ_le_succ le)

theorem Low.up (low : Low t height i) (k : Nat) : Low t (height + k) i :=
  low.mono (Nat.le_add_right height k)

/-- A node above low ones is a little less so. -/
theorem Low.above (below : AllLow t height (t.children i)) : Low t (height + 1) i :=
  .node (fun c child _ => (below c child).up 1) fun c child _ => below c child

/-- A node may take up one that is as high as it is. -/
theorem Low.around {base : Nat} (takes : (t.kind i).takesUp = true)
    (children : t.children i = base :: ids) (first : Low t (height + 1) base)
    (rest : AllLow t height ids) : Low t (height + 1) i := by
  have cases_ : ∀ c ∈ t.children i, c = base ∨ c ∈ ids := by simp [children]
  refine .node (fun c child _ => ?_) fun c child stands => ?_
  · obtain rfl | listed := cases_ c child
    · exact first
    · exact (rest c listed).up 1
  · obtain rfl | listed := cases_ c child
    · exact absurd (.inl ⟨takes, by simp [children]⟩) stands
    · exact rest c listed

@[simp] theorem all_low_nil : AllLow t height [] := by simp [AllLow]

@[simp] theorem all_low_cons :
    AllLow t height (i :: ids) ↔ Low t height i ∧ AllLow t height ids := by
  simp [AllLow]

@[simp] theorem all_low_append :
    AllLow t height (ids ++ others) ↔ AllLow t height ids ∧ AllLow t height others := by
  simp [AllLow, or_imp, forall_and]

end Low

def NewLow (t : SyntaxTree) (top : Nat) (nodes later : Array Node) : Prop :=
  ∀ i, nodes.size ≤ i → i < later.size → Low t top i

theorem NewLow.trans {t : SyntaxTree} {top : Nat} {nodes later last : Array Node}
    (first : NewLow t top nodes later) (second : NewLow t top later last) :
    NewLow t top nodes last := by
  intro i from_ under
  rcases Nat.lt_or_ge i later.size with low | high
  · exact first i from_ low
  · exact second i high under

/-- Whatever comes of reading, if the nodes become those of `t` and `given` is known of what was
read before, then the new nodes are not higher than `top` and every success has the property `Q`. -/
def Limits (t : SyntaxTree) (top : Nat) (given : Prop) (p : Parser α) (Q : α → Prop) : Prop :=
  ∀ s r s', p s = some (r, s') → Develops s.nodes s'.nodes ∧ (Develops s'.nodes t.nodes → given →
    NewLow t top s.nodes s'.nodes ∧ ∀ a, r = .ok a → Q a)

namespace Limits

variable {t : SyntaxTree} {top : Nat} {given : Prop} {p : Parser α} {Q R : α → Prop}

theorem mono (limits : Limits t top given p R) (imp : ∀ a, R a → Q a) : Limits t top given p Q := by
  intro s r s' run
  obtain ⟨develops, holds⟩ := limits s r s' run
  refine ⟨develops, fun later known => ?_⟩
  obtain ⟨new, result⟩ := holds later known
  exact ⟨new, fun a same => imp a (result a same)⟩

/-- What is known of a success of itself. -/
theorem also (limits : Limits t top given p R)
    (imp : ∀ s a s', p s = some (.ok a, s') → R a → Q a) : Limits t top given p Q := by
  intro s r s' run
  obtain ⟨develops, holds⟩ := limits s r s' run
  refine ⟨develops, fun later known => ?_⟩
  obtain ⟨new, result⟩ := holds later known
  refine ⟨new, ?_⟩
  rintro a rfl
  exact imp s a s' run (result a rfl)

theorem weaken {known : Prop} (limits : Limits t top given p Q) (imp : known → given) :
    Limits t top known p Q := by
  intro s r s' run
  obtain ⟨develops, holds⟩ := limits s r s' run
  exact ⟨develops, fun later known => holds later (imp known)⟩

/-- A reader that leaves the nodes alone. -/
theorem still (nodes : ∀ s r s', p s = some (r, s') →
      s'.nodes = s.nodes ∧ (given → ∀ a, r = .ok a → Q a)) :
    Limits t top given p Q := by
  intro s r s' run
  obtain ⟨same, holds⟩ := nodes s r s' run
  refine ⟨same ▸ .refl _, fun _ known => ⟨fun i low high => ?_, holds known⟩⟩
  rw [same] at high
  omega

/-- What is read next may rely on what was read first. -/
theorem bind {f : α → Parser β} {Q : β → Prop} (first : Limits t top given p R)
    (second : ∀ a, Limits t top (given ∧ R a) (f a) Q) : Limits t top given (p >>= f) Q := by
  intro s r s' run
  rw [run_bind] at run
  cases read : p s with
  | none =>
    rw [read] at run
    cases run
  | some outcome =>
    obtain ⟨result, s₁⟩ := outcome
    rw [read] at run
    obtain ⟨develops, holds⟩ := first s result s₁ read
    cases result with
    | error e =>
      cases run
      refine ⟨develops, fun later known => ?_⟩
      exact ⟨(holds later known).1, fun b same => nomatch same⟩
    | ok a =>
      obtain ⟨develops', holds'⟩ := second a s₁ r s' run
      refine ⟨develops.trans develops', fun later known => ?_⟩
      obtain ⟨new, result⟩ := holds (develops'.trans later) known
      obtain ⟨new', result'⟩ := holds' later ⟨known, result a rfl⟩
      exact ⟨new.trans new', result'⟩

/-- What is read next need not rely on what was read first. -/
theorem then_ {f : α → Parser β} {Q : β → Prop} (first : Limits t top given p R)
    (second : ∀ a, Limits t top given (f a) Q) : Limits t top given (p >>= f) Q :=
  first.bind fun a => (second a).weaken And.left

theorem pure {a : α} (holds : given → Q a) : Limits t top given (pure a) Q := by
  refine still fun s r s' run => ?_
  cases run
  refine ⟨rfl, fun known => ?_⟩
  rintro _ ⟨⟩
  exact holds known

theorem done {a : α} : Limits t top given (Pure.pure a : Parser α) fun _ => True :=
  pure fun _ => trivial

theorem map {f : α → β} {Q : β → Prop} (limits : Limits t top given p fun a => Q (f a)) :
    Limits t top given (f <$> p) Q := by
  rw [← bind_pure_comp]
  exact limits.bind fun a => pure And.right

theorem any (limits : Limits t top given p R) : Limits t top given p fun _ => True :=
  limits.mono fun _ _ => trivial

theorem discard (limits : Limits t top given p R) :
    Limits t top given (discard p) fun _ => True :=
  limits.any.map

theorem stuck : Limits t top given (Parser.stuck : Parser α) Q := fun _ _ _ run => nomatch run

theorem throw {e : ParseError} : Limits t top given (throw e : Parser α) Q := by
  refine still fun s r s' run => ?_
  cases run
  exact ⟨rfl, fun _ a same => nomatch same⟩

theorem ite {condition : Prop} [Decidable condition] {p q : Parser α}
    (yes : condition → Limits t top given p Q) (no : ¬condition → Limits t top given q Q) :
    Limits t top given (if condition then p else q) Q := by
  split
  · exact yes (by assumption)
  · exact no (by assumption)

theorem get : Limits t top given (MonadState.get : Parser ParserState) fun _ => True := by
  refine still fun s r s' run => ?_
  cases run
  exact ⟨rfl, fun _ _ _ => trivial⟩

theorem modify {change : ParserState → ParserState} (nodes : ∀ s, (change s).nodes = s.nodes) :
    Limits t top given (modify change : Parser PUnit) fun _ => True := by
  refine still fun s r s' run => ?_
  cases run
  exact ⟨nodes s, fun _ _ _ => trivial⟩

theorem tryCatch {handler : ParseError → Parser α} (limits : Limits t top given p Q)
    (handled : ∀ e, Limits t top given (handler e) Q) :
    Limits t top given (tryCatch p handler) Q := by
  intro s r s' run
  rw [run_try_catch] at run
  cases read : p s with
  | none =>
    rw [read] at run
    cases run
  | some outcome =>
    obtain ⟨result, s₁⟩ := outcome
    rw [read] at run
    obtain ⟨develops, holds⟩ := limits s result s₁ read
    cases result with
    | error e =>
      obtain ⟨develops', holds'⟩ := handled e s₁ r s' run
      refine ⟨develops.trans develops', fun later known => ?_⟩
      obtain ⟨new, -⟩ := holds (develops'.trans later) known
      obtain ⟨new', result'⟩ := holds' later known
      exact ⟨new.trans new', result'⟩
    | ok a =>
      cases run
      exact ⟨develops, holds⟩

theorem restoring {restore : ParserState → ParserState} (limits : Limits t top given p Q)
    (nodes : ∀ s, (restore s).nodes = s.nodes) :
    Limits t top given (Parser.restoring restore p) Q := by
  intro s r s' run
  have unfolded : Parser.restoring restore p s = (p s).bind fun out => some (out.1, restore out.2) := rfl
  rw [unfolded] at run
  obtain ⟨⟨result, s₁⟩, read, same⟩ := Option.bind_eq_some_iff.mp run
  cases same
  rw [nodes]
  exact limits s _ s₁ read

theorem withScope {scope : Option TypeScope} (limits : Limits t top given p Q) :
    Limits t top given (Parser.withScope scope p) Q := by
  intro s r s' run
  have unfolded : Parser.withScope scope p s =
      (p { s with scope }).bind fun out => some (out.1, { out.2 with scope := s.scope }) := rfl
  rw [unfolded] at run
  obtain ⟨⟨result, s₁⟩, read, same⟩ := Option.bind_eq_some_iff.mp run
  cases same
  exact limits { s with scope } _ s₁ read

section Loops

variable {step : β → Parser (ForInStep β)} {I Q : β → Prop}

theorem iterate (each : ∀ b, Limits t top (given ∧ I b) (step b) (Leaves I Q)) (fuel : Nat)
    (b : β) : Limits t top (given ∧ I b) (Parser.iterate step fuel b) Q := by
  induction fuel generalizing b with
  | zero => exact stuck
  | succ fuel ih =>
    refine .bind (each b) fun r => ?_
    cases r with
    | done b' => exact pure And.right
    | yield b' => exact (ih b').weaken fun known => ⟨known.1.1, known.2⟩

theorem remaining : Limits t top given Parser.remaining fun _ => True := .then_ get fun _ => done

theorem repeatFrom {b : β} (start : given → I b)
    (each : ∀ b, Limits t top (given ∧ I b) (step b) (Leaves I Q)) :
    Limits t top given (Parser.repeatFrom b step) Q :=
  .then_ remaining fun _ => (iterate each _ b).weaken fun known => ⟨known, start known⟩

/-- A loop of which nothing is asked. -/
theorem repeated {b : β} (each : ∀ b, Limits t top given (step b) fun _ => True) :
    Limits t top given (Parser.repeatFrom b step) fun _ => True :=
  repeatFrom (I := fun _ => True) (fun _ => trivial) fun b =>
    ((each b).weaken And.left).mono fun r _ => by cases r <;> trivial

end Loops

theorem current : Limits t top given Parser.current fun _ => True := .then_ get fun _ => done

theorem ahead (k : Nat) : Limits t top given (Parser.ahead k) fun _ => True :=
  .then_ get fun _ => done

theorem skip : Limits t top given Parser.skip fun _ => True := modify fun _ => nodes_advance

theorem advance : Limits t top given Parser.advance fun _ => True :=
  .then_ current fun _ => .then_ skip fun _ => done

theorem check (kind : TokenKind) : Limits t top given (Parser.check kind) fun _ => True :=
  .then_ current fun _ => done

theorem eat (kind : TokenKind) : Limits t top given (Parser.eat kind) fun _ => True :=
  .then_ (check kind) fun _ => .ite (fun _ => .then_ skip fun _ => done) fun _ => done

theorem unexpected (expected : List String) :
    Limits t top given (Parser.unexpected expected : Parser α) Q :=
  .then_ current fun _ => throw

theorem expect (kind : TokenKind) (expected : String) :
    Limits t top given (Parser.expect kind expected) fun _ => True :=
  .then_ (check kind) fun _ => .ite (fun _ => advance) fun _ => unexpected _

theorem spanFrom (start : Span) : Limits t top given (Parser.spanFrom start) fun _ => True :=
  .then_ get fun _ => done

/-- A new node is low if that follows from its kind and its children. -/
theorem push {kind : NodeKind} {ids : List Nat} {height : Nat} (room : height ≤ top)
    (low : given → ∀ i, t.kind i = kind → t.children i = ids → Low t height i) (span : Span) :
    Limits t top given (Parser.push kind span ids) fun i => t.kind i = kind ∧ Low t height i := by
  intro s r s' run
  rw [Heeds.push_run] at run
  split at run
  · cases run
    refine ⟨adopt_develops, fun later known => ?_⟩
    obtain ⟨n, found, same, -, children⟩ := later _ _ adopt_new
    have kind_eq : t.kind s.nodes.size = kind := by
      rw [SyntaxTree.kind, SyntaxTree.node?, found]
      exact same
    have made : Low t height s.nodes.size := by
      refine low known _ kind_eq ?_
      rw [SyntaxTree.children, SyntaxTree.node?, found]
      exact children
    refine ⟨fun i from_ under => ?_, ?_⟩
    · rw [size_adopt] at under
      obtain rfl : i = s.nodes.size := by omega
      exact made.mono room
    · rintro _ ⟨⟩
      exact ⟨kind_eq, made⟩
  · cases run

theorem finishStatement (start : Span) :
    Limits t top given (Parser.finishStatement start) fun _ => True :=
  .then_ current fun _ => .ite (fun _ => .then_ skip fun _ => spanFrom start) fun _ =>
    .ite (fun _ => .then_ (spanFrom start) fun _ => .then_ skip fun _ => done)
      fun _ => unexpected _

section Push

variable {kind : NodeKind} {base height : Nat} {ids : List Nat} (room : height + 1 ≤ top)
include room

theorem pushAbove (low : given → AllLow t height ids) (span : Span) :
    Limits t top given (Parser.push kind span ids) (Low t (height + 1)) :=
  (push room (fun known _ _ same => .above (same ▸ low known)) span).mono fun _ made => made.2

/-- A node that takes up what was read before. -/
theorem pushAround (takes : kind.takesUp = true) (first : given → Low t (height + 1) base)
    (rest : given → AllLow t height ids) (span : Span) :
    Limits t top given (Parser.push kind span (base :: ids)) (Low t (height + 1)) :=
  (push room (fun known _ same children => .around (same ▸ takes) children (first known) (rest known))
    span).mono fun _ made => made.2

end Push

/-- However many dollars stand in front of each other, a variable variable is only two nodes above
what is in its braces: all but the last of them prolong one another. -/
theorem pushDollar {i height : Nat} (room : height + 2 ≤ top)
    (behind : given → Low t (height + 2) i ∧ (t.kind i = .variableVariable ∨ Low t (height + 1) i))
    (span : Span) :
    Limits t top given (Parser.push .variableVariable span [i]) fun j =>
      Low t (height + 2) j ∧ (t.kind j = .variableVariable ∨ Low t (height + 1) j) := by
  refine (push room (fun known j kind children => ?_) span).mono fun j made => ⟨made.2, .inl made.1⟩
  obtain ⟨low, cases_⟩ := behind known
  refine .node (fun c child _ => ?_) fun c child stands => ?_
  · obtain rfl : c = i := by simpa [children] using child
    exact low
  · obtain rfl : c = i := by simpa [children] using child
    exact cases_.resolve_left fun same => stands (.inr (.inl ⟨kind, same⟩))

theorem setDocComment (i : Nat) (doc : Option String) :
    Limits t top given (Parser.setDocComment i doc) fun _ => True := by
  intro s r s' run
  have unfolded : Parser.setDocComment i doc s =
      if i < s.nodes.size then some (.ok (), { s with nodes := annotate s.nodes i doc })
      else none := by
    change (if i < s.nodes.size then _ else _ : Parser Unit) s = _
    split <;> rfl
  rw [unfolded] at run
  split at run
  · cases run
    refine ⟨annotate_develops, fun _ _ => ⟨fun j from_ under => ?_, fun _ _ => trivial⟩⟩
    change j < (annotate s.nodes i doc).size at under
    rw [annotate, Array.size_modify] at under
    omega
  · cases run

theorem nested (limits : Limits t top given p Q) : Limits t top given (Parser.nested p) Q := by
  have enter : Limits t top given Parser.enterNesting fun _ => True :=
    .then_ (modify fun _ => rfl) fun _ => .then_ get fun _ => .ite (fun _ => throw) fun _ => done
  exact .then_ enter fun _ => restoring limits fun _ => rfl

theorem synchronize : Limits t top given Parser.synchronize fun _ => True := by
  refine .then_ skip fun _ => repeated fun _ => .then_ current fun token => ?_
  have skips (next : ForInStep Unit) :
      Limits t top given (do Parser.skip; return next) fun _ => True :=
    .then_ skip fun _ => done
  cases token.kind with
  | eof => exact done
  | rightBrace => exact done
  | semicolon => exact skips _
  | closeTag => exact skips _
  | keyword word => exact .ite (fun _ => done) fun _ => skips _
  | _ => exact skips _

theorem recover (depth : Nat) (e : ParseError) :
    Limits t top given (Parser.recover depth e) fun _ => True :=
  .ite (fun _ => .then_ (modify fun _ => rfl) fun _ => synchronize) fun _ => throw

theorem recovering {stop : Token → Bool} {item : Parser (List Nat)} {I : Nat → Prop}
    (each : Limits t top given item fun ids => ∀ i ∈ ids, I i) :
    Limits t top given (Parser.recovering stop item) fun ids => ∀ i ∈ ids, I i := by
  refine repeatFrom (I := fun ids => ∀ i ∈ ids, I i) (fun _ => by simp) fun items => ?_
  refine .then_ get fun s => .ite (fun _ => pure And.right) fun _ => .tryCatch ?_ fun e => ?_
  · refine (each.weaken And.left).bind fun more => pure fun known i member => ?_
    rcases List.mem_append.mp member with old | new
    · exact known.1.2 i old
    · exact known.2 i new
  · exact .then_ (recover s.depth e) fun _ => pure And.right

/-- A node of level `k` is so much higher than those that are nested in it, which are not higher than
`height`. A variable variable is one more, unless it stands behind the dollar of another one. -/
def judgement (t : SyntaxTree) {top height : Nat} (room : height + 6 ≤ top) : Judgement where
  toLikeness := .same
  facts := .none
  node _ k i := Low t (height + k) i
  dollar _ i := Low t (height + 2) i ∧ (t.kind i = .variableVariable ∨ Low t (height + 1) i)
  Says _ _ given _ p _ v := Limits t top given p v.holds
  node_mono low le := low.mono (Nat.add_le_add_left le height)
  dollar_of_node low := ⟨low.up 1, .inr low⟩
  node_of_dollar := And.left
  says_pure _ holds _ := pure holds
  says_bind := by
    intro _ _ _ _ _ _ _ p q f g v w first second
    exact first.bind fun a => second a a (v.refl a)
  says_weaken _ imp said := said.weaken imp
  says_holding imp said := said.also imp
  says_stuck := stuck
  says_throw _ _ := throw
  says_look next := fun s =>
    next s s (.refl _ s) trivial (fun _ inexact => (inexact trivial).elim) s
  says_skip := skip
  says_name said := said.any
  says_push := fun {_ _ _ _ k _ _ _ _} _ _ _ under low _ =>
    pushAbove (show height + k + 1 ≤ top by omega) low _
  says_take := fun {_ _ _ _ k _ _ _ _ _} takes _ under first rest _ =>
    pushAround (show height + k + 1 ≤ top by omega) takes first rest _
  says_dollar _ behind := pushDollar (by omega) behind _
  says_doc := setDocComment
  says_within _ := withScope
  says_recovering _ := recovering

theorem of_said {height n : Nat} (room : height + 6 ≤ top) {q : Parser α}
    {v : Verdict (judgement t room).exact α}
    (said : (judgement t room).Says none True given n p q v) : Limits t top given p v.holds :=
  said

end Limits

end PhpAnalyser
