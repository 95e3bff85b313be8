import PhpAnalyser.Proofs.Production.Statement
/-!
Types around nodes. While a text is read, the type whose body is being read is part of the state;
in the finished tree it is the declaration that stands around a node. A reader leaves this part of
the state as it was, whatever comes of it, and makes nodes that agree with it.
-/
namespace PhpAnalyser

def NodeKind.BoundIn (scope : Option TypeScope) : NodeKind → Prop
  | lateBound reference => Parser.lateTarget reference.keyword scope = .ok reference.target
  | _ => True

theorem NodeKind.bound_of_inner {kind : NodeKind} (inner : kind.isInner = true)
    (scope : Option TypeScope) : kind.BoundIn scope := by
  cases kind <;> trivial

theorem NodeKind.bound_of_other {scope : Option TypeScope} {kind : NodeKind}
    (other : ∀ reference, kind ≠ .lateBound reference) : kind.BoundIn scope := by
  cases kind with
  | lateBound reference => exact absurd rfl (other reference)
  | _ => trivial

theorem NodeKind.inner_of_takes_up {kind : NodeKind} (takes : kind.takesUp = true) :
    kind.isInner = true := by
  cases kind <;> first | rfl | cases takes

/-- All keywords at and below a node stand for what they mean in the types around them, of which
`scope` is the one around the node. -/
inductive InScope (nodes : Array Node) : Option TypeScope → Nat → Prop
  | node {scope : Option TypeScope} {i : Nat} {n : Node} (found : nodes[i]? = some n)
      (bound : n.kind.BoundIn scope)
      (below : ∀ c ∈ n.children, InScope nodes (n.kind.scopeBelow scope) c) :
      InScope nodes scope i

def AllInScope (nodes : Array Node) (scope : Option TypeScope) (ids : List Nat) : Prop :=
  ∀ i ∈ ids, InScope nodes scope i

section AllInScope

variable {nodes : Array Node} {scope : Option TypeScope} {i : Nat} {ids more : List Nat}

@[simp] theorem all_in_scope_nil : AllInScope nodes scope [] := by
  simp [AllInScope]

@[simp] theorem all_in_scope_cons :
    AllInScope nodes scope (i :: ids) ↔ InScope nodes scope i ∧ AllInScope nodes scope ids := by
  simp [AllInScope]

@[simp] theorem all_in_scope_append :
    AllInScope nodes scope (ids ++ more) ↔
      AllInScope nodes scope ids ∧ AllInScope nodes scope more := by
  simp [AllInScope, or_imp, forall_and]

end AllInScope

theorem Develops.refl (nodes : Array Node) : Develops nodes nodes :=
  fun _ n found => ⟨n, found, rfl, rfl, rfl⟩

/-- Reading with `scope` in effect leaves it in effect, and every success has the property `Q`,
which may speak of the nodes `final` that the nodes made so far become. -/
def Heeds (final : Array Node) (scope : Option TypeScope) (p : Parser α) (Q : α → Prop) : Prop :=
  ∀ s, s.scope = scope → ∀ r s', p s = some (r, s') →
    s'.scope = scope ∧ Develops s.nodes s'.nodes ∧
      ∀ a, r = .ok a → Develops s'.nodes final → Q a

namespace Heeds

variable {final : Array Node} {scope : Option TypeScope} {p : Parser α} {Q R : α → Prop}

theorem mono (heeds : Heeds final scope p R) (imp : ∀ a, R a → Q a) : Heeds final scope p Q := by
  intro s here r s' run
  obtain ⟨kept, develops, holds⟩ := heeds s here r s' run
  exact ⟨kept, develops, fun a same later => imp a (holds a same later)⟩

/-- What is read next may rely on what was read first. -/
theorem bind {f : α → Parser β} {Q : β → Prop} (first : Heeds final scope p R)
    (second : ∀ a, Heeds final scope (f a) fun b => R a → Q b) :
    Heeds final scope (p >>= f) Q := by
  intro s here r s' run
  rw [run_bind] at run
  cases read : p s with
  | none =>
    rw [read] at run
    cases run
  | some outcome =>
    obtain ⟨result, s₁⟩ := outcome
    rw [read] at run
    obtain ⟨kept, develops, holds⟩ := first s here result s₁ read
    cases result with
    | error e =>
      cases run
      exact ⟨kept, develops, fun b same => nomatch same⟩
    | ok a =>
      obtain ⟨kept', develops', holds'⟩ := second a s₁ kept r s' run
      refine ⟨kept', develops.trans develops', fun b same later => ?_⟩
      exact holds' b same later (holds a rfl (develops'.trans later))

/-- What is read next need not rely on what was read first. -/
theorem then_ {f : α → Parser β} {Q : β → Prop} (first : Heeds final scope p R)
    (second : ∀ a, Heeds final scope (f a) Q) : Heeds final scope (p >>= f) Q :=
  first.bind fun a => (second a).mono fun _ holds _ => holds

theorem pure {a : α} (holds : Q a) : Heeds final scope (pure a) Q := by
  intro s here r s' run
  cases run
  refine ⟨here, .refl _, ?_⟩
  rintro _ ⟨⟩ -
  exact holds

theorem stuck : Heeds final scope (Parser.stuck : Parser α) Q := fun _ _ _ _ run => nomatch run

theorem throw {e : ParseError} : Heeds final scope (throw e : Parser α) Q := by
  intro s here r s' run
  cases run
  exact ⟨here, .refl _, fun a same => nomatch same⟩

theorem ite {condition : Prop} [Decidable condition] {p q : Parser α}
    (yes : condition → Heeds final scope p Q) (no : ¬condition → Heeds final scope q Q) :
    Heeds final scope (if condition then p else q) Q := by
  split
  · exact yes (by assumption)
  · exact no (by assumption)

theorem get : Heeds final scope (MonadState.get : Parser ParserState) fun s => s.scope = scope := by
  intro s here r s' run
  cases run
  refine ⟨here, .refl _, ?_⟩
  rintro _ ⟨⟩ -
  exact here

/-- A change that leaves the nodes and the scope alone. -/
theorem modify {change : ParserState → ParserState} (scope_eq : ∀ s, (change s).scope = s.scope)
    (nodes : ∀ s, (change s).nodes = s.nodes) :
    Heeds final scope (modify change : Parser PUnit) fun _ => True := by
  intro s here r s' run
  cases run
  refine ⟨(scope_eq s).trans here, ?_, fun _ _ _ => trivial⟩
  rw [nodes]
  exact .refl _

/-- Whatever a reader fails with, it leaves the scope as it was. -/
theorem tryCatch {handler : ParseError → Parser α} (heeds : Heeds final scope p Q)
    (handled : ∀ e, Heeds final scope (handler e) Q) :
    Heeds final scope (tryCatch p handler) Q := by
  intro s here r s' run
  rw [run_try_catch] at run
  cases read : p s with
  | none =>
    rw [read] at run
    cases run
  | some outcome =>
    obtain ⟨result, s₁⟩ := outcome
    rw [read] at run
    obtain ⟨kept, develops, holds⟩ := heeds s here result s₁ read
    cases result with
    | error e =>
      obtain ⟨kept', develops', holds'⟩ := handled e s₁ kept r s' run
      exact ⟨kept', develops.trans develops', holds'⟩
    | ok a =>
      cases run
      exact ⟨kept, develops, holds⟩

theorem restoring {restore : ParserState → ParserState} (heeds : Heeds final scope p Q)
    (scope_eq : ∀ s, (restore s).scope = s.scope) (nodes : ∀ s, (restore s).nodes = s.nodes) :
    Heeds final scope (Parser.restoring restore p) Q := by
  intro s here r s' run
  have unfolded : Parser.restoring restore p s = (p s).bind fun out => some (out.1, restore out.2) := rfl
  rw [unfolded] at run
  obtain ⟨⟨result, s₁⟩, read, same⟩ := Option.bind_eq_some_iff.mp run
  cases same
  rw [scope_eq, nodes]
  exact heeds s here _ s₁ read

/-- A reader in another scope. -/
theorem withScope {inner : Option TypeScope} (heeds : Heeds final inner p Q) :
    Heeds final scope (Parser.withScope inner p) Q := by
  intro s here r s' run
  have unfolded : Parser.withScope inner p s =
      (p { s with scope := inner }).bind fun out => some (out.1, { out.2 with scope := s.scope }) := rfl
  rw [unfolded] at run
  obtain ⟨⟨result, s₁⟩, read, same⟩ := Option.bind_eq_some_iff.mp run
  cases same
  obtain ⟨-, develops, holds⟩ := heeds _ rfl _ s₁ read
  exact ⟨here, develops, holds⟩

section Loops

variable {step : β → Parser (ForInStep β)} {I Q : β → Prop}

theorem iterate (each : ∀ b, Heeds final scope (step b) fun r => I b → Leaves I Q r) (fuel : Nat)
    (b : β) : Heeds final scope (Parser.iterate step fuel b) fun b' => I b → Q b' := by
  induction fuel generalizing b with
  | zero => exact stuck
  | succ fuel ih =>
    refine .bind (each b) fun r => ?_
    cases r with
    | done b' => exact pure fun left holds => left holds
    | yield b' => exact (ih b').mono fun _ later left holds => later (left holds)

theorem remaining : Heeds final scope Parser.remaining fun _ => True :=
  .then_ get fun _ => pure trivial

theorem repeatFrom {b : β} (start : I b)
    (each : ∀ b, Heeds final scope (step b) fun r => I b → Leaves I Q r) :
    Heeds final scope (Parser.repeatFrom b step) Q :=
  .then_ remaining fun _ => (iterate each _ b).mono fun _ holds => holds start

/-- A loop of which nothing is asked. -/
theorem repeated {b : β} (each : ∀ b, Heeds final scope (step b) fun _ => True) :
    Heeds final scope (Parser.repeatFrom b step) fun _ => True :=
  repeatFrom (I := fun _ => True) trivial fun b => (each b).mono fun r _ _ => by cases r <;> trivial

end Loops

theorem scope_advance (s : ParserState) : s.advance.scope = s.scope := by
  by_cases ends : s.token.kind = .eof
  · rw [advance_of_eof ends]
  · rw [advance_of_more ends]

theorem current : Heeds final scope Parser.current fun _ => True := .then_ get fun _ => pure trivial

theorem skip : Heeds final scope Parser.skip fun _ => True :=
  modify scope_advance fun _ => nodes_advance

theorem push_run (kind : NodeKind) (span : Span) (ids : List Nat) (s : ParserState) :
    Parser.push kind span ids s =
      if ids.all (· < s.nodes.size) then
        some (.ok s.nodes.size, { s with nodes := adopt s.nodes kind span ids })
      else none := by
  change (if ids.all (· < s.nodes.size) then _ else _ : Parser Nat) s = _
  split <;> rfl

theorem push (kind : NodeKind) (span : Span) (ids : List Nat) :
    Heeds final scope (Parser.push kind span ids) fun i => kind.BoundIn scope →
      AllInScope final (kind.scopeBelow scope) ids → InScope final scope i := by
  intro s here r s' run
  rw [push_run] at run
  split at run
  · cases run
    refine ⟨here, adopt_develops, ?_⟩
    rintro _ ⟨⟩ later bound below
    obtain ⟨n, found, same, -, children⟩ := later _ _ adopt_new
    refine .node found ?_ ?_
    · rwa [same]
    · rwa [same, children]
  · cases run

theorem pushInner {kind : NodeKind} (inner : kind.isInner = true) (span : Span) (ids : List Nat) :
    Heeds final scope (Parser.push kind span ids) fun i =>
      AllInScope final scope ids → InScope final scope i :=
  (push kind span ids).mono fun _ made below =>
    made (NodeKind.bound_of_inner inner scope) ((NodeKind.scope_of_inner inner scope).symm ▸ below)

theorem setDocComment (i : Nat) (doc : Option String) :
    Heeds final scope (Parser.setDocComment i doc) fun _ => True := by
  intro s here r s' run
  have unfolded : Parser.setDocComment i doc s =
      if i < s.nodes.size then some (.ok (), { s with nodes := annotate s.nodes i doc })
      else none := by
    change (if i < s.nodes.size then _ else _ : Parser Unit) s = _
    split <;> rfl
  rw [unfolded] at run
  split at run
  · cases run
    exact ⟨here, annotate_develops, fun _ _ _ => trivial⟩
  · cases run

theorem nested (heeds : Heeds final scope p Q) : Heeds final scope (Parser.nested p) Q := by
  have enter : Heeds final scope Parser.enterNesting fun _ => True :=
    .then_ (modify (fun _ => rfl) fun _ => rfl) fun _ =>
      .then_ get fun _ => .ite (fun _ => throw) fun _ => pure trivial
  exact .then_ enter fun _ => restoring heeds (fun _ => rfl) fun _ => rfl

theorem synchronize : Heeds final scope Parser.synchronize fun _ => True := by
  refine .then_ skip fun _ => repeated fun _ => .then_ current fun token => ?_
  have skips (next : ForInStep Unit) :
      Heeds final scope (do Parser.skip; return next) fun _ => True :=
    .then_ skip fun _ => pure trivial
  cases token.kind with
  | eof => exact pure trivial
  | rightBrace => exact pure trivial
  | semicolon => exact skips _
  | closeTag => exact skips _
  | keyword word => exact .ite (fun _ => pure trivial) fun _ => skips _
  | _ => exact skips _

theorem recover (depth : Nat) (e : ParseError) :
    Heeds final scope (Parser.recover depth e) fun _ => True :=
  .ite (fun _ => .then_ (modify (fun _ => rfl) fun _ => rfl) fun _ => synchronize) fun _ => throw

/-- What a failed item has made is left out. -/
theorem recovering {stop : Token → Bool} {item : Parser (List Nat)} {Q : Nat → Prop}
    (each : Heeds final scope item fun ids => ∀ i ∈ ids, Q i) :
    Heeds final scope (Parser.recovering stop item) fun ids => ∀ i ∈ ids, Q i := by
  refine repeatFrom (I := fun ids => ∀ i ∈ ids, Q i) (fun _ => nofun) fun items => ?_
  refine .then_ get fun s => .ite (fun _ => pure id) fun _ => .tryCatch ?_ fun e => ?_
  · exact each.bind fun more => pure fun new before => List.forall_mem_append.mpr ⟨before, new⟩
  · exact .then_ (recover s.depth e) fun _ => pure id

def judgement (final : Array Node) : Judgement where
  toLikeness := .same
  facts := { Facts.none with
    bound scope kind := kind.BoundIn scope
    seen scope s := s.scope = scope
    bound_of := NodeKind.bound_of_other
    held_current _ := trivial
    fine_resolve _ _ := trivial
    fine_qualify _ _ _ := trivial
    bound_late := by
      rintro _ s keyword target rfl late
      exact ⟨late, fun _ _ => trivial⟩ }
  node scope _ i := InScope final scope i
  dollar scope i := InScope final scope i
  Says scope _ given _ p _ v := Heeds final scope p fun a => given → v.holds a
  node_mono inScope _ := inScope
  dollar_of_node := id
  node_of_dollar := id
  says_pure _ holds _ := pure holds
  says_bind := by
    intro _ _ _ _ _ _ _ p q f g v w first second
    exact first.bind fun a => (second a a (v.refl a)).mono
      fun b holds before known => holds ⟨known, before known⟩
  says_weaken _ imp said := said.mono fun a holds known => holds (imp known)
  says_holding imp said := by
    intro s here r s' run
    obtain ⟨kept, develops, holds⟩ := said s here r s' run
    refine ⟨kept, develops, ?_⟩
    rintro a rfl later known
    exact imp s a s' run (holds a rfl later known)
  says_stuck := stuck
  says_throw _ _ := throw
  says_look next := fun s here =>
    next s s (.refl _ s) here (fun _ inexact => (inexact trivial).elim) s here
  says_skip := skip.mono fun _ _ _ => trivial
  says_name said := said.mono fun _ _ _ => trivial
  says_push bound _ _ _ below _ := (push _ _ _).mono fun _ made known => made bound (below known)
  says_take takes _ _ base below _ := (pushInner (NodeKind.inner_of_takes_up takes) _ _).mono
    fun _ made known => made (all_in_scope_cons.mpr ⟨base known, below known⟩)
  says_dollar _ below := (pushInner rfl _ _).mono fun _ made known =>
    made (all_in_scope_cons.mpr ⟨below known, all_in_scope_nil⟩)
  says_doc i doc := (setDocComment i doc).mono fun _ _ _ => trivial
  says_within _ said := withScope said
  says_recovering _ said := by
    have each := said.mono fun _ all i member known => all known i member
    exact (recovering each).mono fun _ all known i member => all i member known

theorem of_said {n : Nat} {p q : Parser α} {v : Verdict (judgement final).exact α}
    (said : (judgement final).Says scope True True n p q v) : Heeds final scope p v.holds :=
  mono said fun _ holds => holds trivial

end Heeds

end PhpAnalyser
