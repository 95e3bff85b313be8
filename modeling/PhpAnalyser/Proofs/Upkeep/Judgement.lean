import Mathlib.Algebra.Ring.Int.Defs
import PhpAnalyser.Proofs.Naming.Words
import PhpAnalyser.Proofs.Scope.Judgement
/-!
What every reader keeps up, whatever comes of it: the names in effect, around the current token and
in the nodes made so far are fine; and unless an error is noted, the nodes that still want a parent
are those that are handed on, and one for each member named by an expression.
-/
namespace PhpAnalyser

theorem NodeKind.quiet_of_takes_up {kind : NodeKind} (takes : kind.takesUp = true) :
    kind.isQuiet = true := by
  cases kind <;> first | rfl | cases takes

/-- One for the node itself, less its children and the expression that names it. -/
def Node.surplus (n : Node) : Int :=
  1 - n.children.length - (if n.kind.isNamedByExpression then 1 else 0)

def surplus (nodes : Array Node) : Int := (nodes.toList.map Node.surplus).sum

section Counting

variable {nodes : Array Node} {kind : NodeKind} {span : Span} {ids : List Nat}

theorem surplus_adopt : surplus (adopt nodes kind span ids) =
    surplus nodes + (1 - ids.length - (if kind.isNamedByExpression then 1 else 0)) := by
  rw [surplus, map_adopt fun _ _ => rfl, List.sum_append, List.sum_singleton]
  rfl

theorem kinds_adopt : (adopt nodes kind span ids).toList.map (·.kind) =
    nodes.toList.map (·.kind) ++ [kind] :=
  map_adopt fun _ _ => rfl

theorem kinds_annotate (i : Nat) (doc : Option String) :
    (annotate nodes i doc).toList.map (·.kind) = nodes.toList.map (·.kind) :=
  map_modify (fun _ => by rfl) i

theorem surplus_annotate (i : Nat) (doc : Option String) :
    surplus (annotate nodes i doc) = surplus nodes := by
  rw [surplus, annotate, map_modify fun _ => by rfl]
  rfl

end Counting

structure TypeScope.Fine (fine : String → Prop) (scope : TypeScope) : Prop where
  name : fine scope.name
  parent : ∀ parent, scope.parent = some parent → fine parent

structure NamesFine (fine : String → Prop) (s : ParserState) : Prop where
  names : s.names.Fine fine
  scope : ∀ scope, s.scope = some scope → scope.Fine fine
  nodes : ∀ kind ∈ s.nodes.toList.map (·.kind), ∀ name ∈ kind.typeNames, fine name

theorem NamesFine.advance {fine : String → Prop} {s : ParserState} (kept : NamesFine fine s) :
    NamesFine fine s.advance where
  names := by
    rw [names_advance]
    exact kept.names
  scope := by
    rw [Heeds.scope_advance]
    exact kept.scope
  nodes := by
    rw [nodes_advance]
    exact kept.nodes

/-- The words and the law that the names of a text follow. -/
structure NamedBy (tokens : Array Token) (fine : String → Prop) : Prop where
  lettered : Lettered tokens
  law : NameLaw (HasRootedMember tokens) fine

structure Upkeep (tokens : Array Token) (fine : String → Prop) (s s' : ParserState) : Prop where
  tokens : s'.tokens = tokens
  kept : NamesFine fine s'
  clean : s'.errors = [] → s.errors = []

/-- Reading from `s` with `n` nodes at hand keeps the names fine, and every success has the property
`Q` and leaves as many nodes at hand as `w` says. -/
def UpholdsAt (tokens : Array Token) (fine : String → Prop) (n : Nat) (p : Parser α) (w : α → Nat)
    (Q : α → Prop) (s : ParserState) : Prop :=
  ∀ r s', p s = some (r, s') → Upkeep tokens fine s s' ∧
    ∀ a, r = .ok a → Q a ∧ (s'.errors = [] → surplus s'.nodes + n = surplus s.nodes + w a)

def Upholds (tokens : Array Token) (fine : String → Prop) (n : Nat) (p : Parser α) (w : α → Nat)
    (Q : α → Prop) : Prop :=
  ∀ s, s.tokens = tokens → NamesFine fine s → UpholdsAt tokens fine n p w Q s

namespace UpholdsAt

variable {tokens : Array Token} {fine : String → Prop} {n m : Nat} {p : Parser α} {w : α → Nat}
  {Q R : α → Prop} {s : ParserState}

/-- What is known of successes may be added. -/
theorem also (upholds : UpholdsAt tokens fine n p w R s) (succeeds : Succeeds p s fun a _ => Q a) :
    UpholdsAt tokens fine n p w Q s := by
  intro r s' run
  obtain ⟨upkeep, holds⟩ := upholds r s' run
  refine ⟨upkeep, fun a is => ⟨?_, (holds a is).2⟩⟩
  subst is
  exact succeeds a s' run

/-- Of the nodes at hand, `m` are left to what is read first. -/
theorem bind {f : α → Parser β} {v : β → Nat} {Q : β → Prop}
    (first : UpholdsAt tokens fine m p w R s)
    (second : ∀ a s₁, p s = some (.ok a, s₁) → Upkeep tokens fine s s₁ → R a →
      UpholdsAt tokens fine (n + w a) (f a) v Q s₁) :
    UpholdsAt tokens fine (n + m) (p >>= f) v Q s := by
  intro r s' run
  rw [run_bind] at run
  cases read : p s with
  | none =>
    rw [read] at run
    cases run
  | some outcome =>
    obtain ⟨result, s₁⟩ := outcome
    rw [read] at run
    obtain ⟨upkeep, holds⟩ := first result s₁ read
    cases result with
    | error e =>
      cases run
      exact ⟨upkeep, fun b same => nomatch same⟩
    | ok a =>
      obtain ⟨good, count⟩ := holds a rfl
      obtain ⟨upkeep', holds'⟩ := second a s₁ read upkeep good r s' run
      refine ⟨⟨upkeep'.tokens, upkeep'.kept, fun none => upkeep.clean (upkeep'.clean none)⟩, ?_⟩
      intro b same
      obtain ⟨good', count'⟩ := holds' b same
      refine ⟨good', fun none => ?_⟩
      have before := count (upkeep'.clean none)
      have behind := count' none
      omega

theorem ite {condition : Prop} [Decidable condition] {p q : Parser α}
    (yes : condition → UpholdsAt tokens fine n p w Q s)
    (no : ¬condition → UpholdsAt tokens fine n q w Q s) :
    UpholdsAt tokens fine n (if condition then p else q) w Q s := by
  split
  · exact yes (by assumption)
  · exact no (by assumption)

section State

variable {Q : β → Prop} {w : β → Nat}

theorem check {kind : TokenKind} {f : Bool → Parser β}
    (upholds : UpholdsAt tokens fine n (f (decide (s.token.kind = kind))) w Q s) :
    UpholdsAt tokens fine n (Parser.check kind >>= f) w Q s := upholds

theorem ahead {k : Nat} {f : Token → Parser β}
    (upholds : UpholdsAt tokens fine n (f (s.stream.peek k)) w Q s) :
    UpholdsAt tokens fine n (Parser.ahead k >>= f) w Q s := upholds

theorem skip {f : Unit → Parser β} (here : s.tokens = tokens) (kept : NamesFine fine s)
    (upholds : s.advance.tokens = tokens → NamesFine fine s.advance →
      UpholdsAt tokens fine n (f ()) w Q s.advance) :
    UpholdsAt tokens fine n (Parser.skip >>= f) w Q s := by
  intro r s' run
  obtain ⟨upkeep, holds⟩ := upholds (tokens_advance.trans here) kept.advance r s' run
  rw [nodes_advance] at holds
  exact ⟨⟨upkeep.tokens, upkeep.kept, fun none => errors_advance ▸ upkeep.clean none⟩, holds⟩

end State

end UpholdsAt

namespace Upholds

variable {tokens : Array Token} {fine : String → Prop} {n m : Nat} {p : Parser α} {w : α → Nat}
  {Q R : α → Prop}

abbrev Reads (tokens : Array Token) (fine : String → Prop) (p : Parser α) (Q : α → Prop) : Prop :=
  Upholds tokens fine 0 p (fun _ => 0) Q

abbrev One (tokens : Array Token) (fine : String → Prop) (n : Nat) (p : Parser Nat) : Prop :=
  Upholds tokens fine n p (fun _ => 1) fun _ => True

abbrev Many (tokens : Array Token) (fine : String → Prop) (p : Parser (List Nat)) : Prop :=
  Upholds tokens fine 0 p List.length fun _ => True

/-- Reading from a state that has been got to. -/
theorem after {s s₁ : ParserState} (upholds : Upholds tokens fine n p w Q)
    (upkeep : Upkeep tokens fine s s₁) : UpholdsAt tokens fine n p w Q s₁ :=
  upholds s₁ upkeep.tokens upkeep.kept

theorem mono (upholds : Upholds tokens fine n p w R) (imp : ∀ a, R a → Q a) :
    Upholds tokens fine n p w Q := by
  intro s same kept r s' run
  obtain ⟨upkeep, holds⟩ := upholds s same kept r s' run
  exact ⟨upkeep, fun a is => (holds a is).imp_left (imp a)⟩

theorem any (upholds : Upholds tokens fine n p w R) : Upholds tokens fine n p w fun _ => True :=
  upholds.mono fun _ _ => trivial

/-- What is known of successes may be added. -/
theorem also (upholds : Upholds tokens fine n p w R)
    (succeeds : ∀ s, s.tokens = tokens → Succeeds p s fun a _ => Q a) :
    Upholds tokens fine n p w Q :=
  fun s same kept => (upholds s same kept).also (succeeds s same)

/-- Of the nodes at hand, `m` are left to what is read first. -/
theorem pass {f : α → Parser β} {v : β → Nat} {Q : β → Prop} (first : Upholds tokens fine m p w R)
    (second : ∀ a, R a → Upholds tokens fine (n + w a) (f a) v Q) :
    Upholds tokens fine (n + m) (p >>= f) v Q :=
  fun s same kept => (first s same kept).bind fun a s₁ _ upkeep is =>
    second a is s₁ upkeep.tokens upkeep.kept

/-- What is read first leaves more nodes at hand. -/
theorem bind {f : α → Parser β} {v : β → Nat} {Q : β → Prop} (first : Upholds tokens fine 0 p w R)
    (second : ∀ a, R a → Upholds tokens fine (n + w a) (f a) v Q) :
    Upholds tokens fine n (p >>= f) v Q :=
  pass first second

/-- What is read first leaves no nodes. -/
theorem given {f : α → Parser β} {v : β → Nat} {Q : β → Prop} (first : Reads tokens fine p R)
    (second : ∀ a, R a → Upholds tokens fine n (f a) v Q) :
    Upholds tokens fine n (p >>= f) v Q :=
  pass first second

/-- Nor does anything need to be known about it. -/
theorem then_ {f : α → Parser β} {v : β → Nat} {Q : β → Prop} (first : Reads tokens fine p R)
    (second : ∀ a, Upholds tokens fine n (f a) v Q) : Upholds tokens fine n (p >>= f) v Q :=
  given first fun a _ => second a

theorem pure {a : α} (holds : Q a) (all : n = w a) : Upholds tokens fine n (pure a) w Q := by
  intro s here kept r s' run
  cases run
  refine ⟨⟨here, kept, id⟩, ?_⟩
  rintro _ ⟨⟩
  exact ⟨holds, fun _ => by rw [all]⟩

theorem map {f : α → β} {w : β → Nat} {Q : β → Prop}
    (upholds : Upholds tokens fine 0 p (fun a => w (f a)) fun a => Q (f a)) :
    Upholds tokens fine 0 (f <$> p) w Q := by
  rw [← bind_pure_comp]
  exact upholds.bind fun a holds => pure holds (Nat.zero_add _)

theorem discard (reads : Reads tokens fine p R) : Reads tokens fine (discard p) fun _ => True :=
  map reads.any

theorem stuck : Upholds tokens fine n (Parser.stuck : Parser α) w Q :=
  fun _ _ _ _ _ run => nomatch run

theorem throw {e : ParseError} : Upholds tokens fine n (throw e : Parser α) w Q := by
  intro s here kept r s' run
  cases run
  exact ⟨⟨here, kept, id⟩, fun a same => nomatch same⟩

theorem ite {condition : Prop} [Decidable condition] {p q : Parser α}
    (yes : condition → Upholds tokens fine n p w Q)
    (no : ¬condition → Upholds tokens fine n q w Q) :
    Upholds tokens fine n (if condition then p else q) w Q := by
  split
  · exact yes (by assumption)
  · exact no (by assumption)

theorem get : Reads tokens fine MonadState.get fun s => s.tokens = tokens ∧ NamesFine fine s := by
  intro s here kept r s' run
  cases run
  refine ⟨⟨here, kept, id⟩, ?_⟩
  rintro _ ⟨⟩
  exact ⟨⟨here, kept⟩, fun _ => rfl⟩

/-- A change of the state that makes no nodes and forgets no errors. -/
theorem modify {change : ParserState → ParserState}
    (upkeep : ∀ s, s.tokens = tokens → NamesFine fine s → Upkeep tokens fine s (change s))
    (nodes : ∀ s, (change s).nodes = s.nodes) :
    Reads tokens fine (modify change : Parser PUnit) fun _ => True := by
  intro s here kept r s' run
  cases run
  exact ⟨upkeep s here kept, fun _ _ => ⟨trivial, fun _ => by rw [nodes]⟩⟩

/-- Behind a failure that is handled the nodes are not counted any more. -/
theorem tryCatch {handler : ParseError → Parser α} (upholds : Upholds tokens fine n p w Q)
    (handled : ∀ e m, Upholds tokens fine m (handler e) w Q) :
    Upholds tokens fine n (tryCatch p handler) w Q := by
  intro s here kept r s' run
  rw [run_try_catch] at run
  cases read : p s with
  | none =>
    rw [read] at run
    cases run
  | some outcome =>
    obtain ⟨result, s₁⟩ := outcome
    rw [read] at run
    obtain ⟨upkeep, holds⟩ := upholds s here kept result s₁ read
    cases result with
    | ok a =>
      cases run
      exact ⟨upkeep, holds⟩
    | error e =>
      have after (m : Nat) := handled e m s₁ upkeep.tokens upkeep.kept r s' run
      obtain ⟨upkeep', -⟩ := after 0
      refine ⟨⟨upkeep'.tokens, upkeep'.kept, fun none => upkeep.clean (upkeep'.clean none)⟩, ?_⟩
      intro a same
      refine ⟨((after 0).2 a same).1, fun none => ?_⟩
      -- two different numbers of nodes at hand would come to the same
      have zero := ((after 0).2 a same).2 none
      have one := ((after 1).2 a same).2 none
      omega

section Loops

variable {step : β → Parser (ForInStep β)} {I Q : β → Prop} {v : β → Nat}

/-- The value of a loop says how many nodes are at hand. -/
theorem iterate (each : ∀ b, I b →
      Upholds tokens fine (v b) (step b) (fun r => v r.value) (Leaves I Q)) (fuel : Nat)
    {b : β} (start : I b) : Upholds tokens fine (v b) (Parser.iterate step fuel b) v Q := by
  induction fuel generalizing b with
  | zero => exact stuck
  | succ fuel ih =>
    rw [← Nat.zero_add (v b)]
    refine .pass (each b start) fun r left => ?_
    rw [Nat.zero_add]
    cases r with
    | done b' => exact pure left rfl
    | yield b' => exact ih left

theorem remaining : Reads tokens fine Parser.remaining fun _ => True :=
  .then_ get fun _ => pure trivial rfl

theorem repeatFrom {b : β} (start : I b) (each : ∀ b, I b →
      Upholds tokens fine (v b) (step b) (fun r => v r.value) (Leaves I Q)) :
    Upholds tokens fine (v b) (Parser.repeatFrom b step) v Q :=
  .then_ remaining fun _ => iterate each _ start

/-- A loop that leaves no nodes and of which nothing is asked. -/
theorem repeated {b : β} (each : ∀ b, Reads tokens fine (step b) fun _ => True) :
    Reads tokens fine (Parser.repeatFrom b step) fun _ => True :=
  repeatFrom (I := fun _ => True) (v := fun _ => 0) trivial fun b _ =>
    (each b).mono fun r _ => by cases r <;> trivial

/-- A loop that collects nodes. -/
theorem collect {step : List Nat → Parser (ForInStep (List Nat))}
    (each : ∀ ids, Upholds tokens fine ids.length (step ids) (fun r => r.value.length)
      fun _ => True) : Many tokens fine (Parser.repeatFrom [] step) :=
  repeatFrom (I := fun _ => True) (v := List.length) trivial fun ids _ =>
    (each ids).mono fun r _ => by cases r <;> trivial

end Loops

/-- A loop whose steps lead from states with a property to such states. -/
theorem repeatFromAt {step : β → Parser (ForInStep β)} {v : β → Nat} {I : ParserState → Prop}
    (each : ∀ b s, s.tokens = tokens → NamesFine fine s → I s →
      UpholdsAt tokens fine (v b) (step b) (fun r => v r.value) (fun _ => True) s ∧
        Succeeds (step b) s fun r s' => ∀ b', r = .yield b' → I s')
    {s : ParserState} (here : s.tokens = tokens) (kept : NamesFine fine s) (start : I s) (b : β) :
    UpholdsAt tokens fine (v b) (Parser.repeatFrom b step) v (fun _ => True) s := by
  have loop (fuel : Nat) : ∀ b s, s.tokens = tokens → NamesFine fine s → I s →
      UpholdsAt tokens fine (v b) (Parser.iterate step fuel b) v (fun _ => True) s := by
    induction fuel with
    | zero => exact fun _ _ _ _ _ _ _ run => nomatch run
    | succ fuel ih =>
      intro b s here kept holds
      obtain ⟨upholds, keeps⟩ := each b s here kept holds
      rw [← Nat.zero_add (v b)]
      refine upholds.bind fun r s₁ run upkeep _ => ?_
      rw [Nat.zero_add]
      cases r with
      | done b' => exact after (pure trivial rfl) upkeep
      | yield b' => exact ih b' s₁ upkeep.tokens upkeep.kept (keeps _ s₁ run b' rfl)
  exact loop _ b s here kept start

theorem current : Reads tokens fine Parser.current fun t => t ∈ tokens :=
  .given get fun s same => pure (same.1 ▸ s.token_mem) rfl

theorem ahead (k : Nat) : Reads tokens fine (Parser.ahead k) fun _ => True :=
  .then_ get fun _ => pure trivial rfl

theorem skip : Reads tokens fine Parser.skip fun _ => True :=
  modify (fun _ here kept => ⟨tokens_advance.trans here, kept.advance, fun none => errors_advance ▸ none⟩)
    fun _ => nodes_advance

theorem advance : Reads tokens fine Parser.advance fun t => t ∈ tokens :=
  .given current fun _ member => .then_ skip fun _ => pure member rfl

theorem check (kind : TokenKind) : Reads tokens fine (Parser.check kind) fun _ => True :=
  .then_ current fun _ => pure trivial rfl

theorem eat (kind : TokenKind) : Reads tokens fine (Parser.eat kind) fun _ => True :=
  .then_ (check kind) fun _ => .ite (fun _ => .then_ skip fun _ => pure trivial rfl)
    fun _ => pure trivial rfl

theorem unexpected (expected : List String) :
    Upholds tokens fine n (Parser.unexpected expected : Parser α) w Q :=
  .then_ current fun _ => throw

theorem expect (kind : TokenKind) (expected : String) :
    Reads tokens fine (Parser.expect kind expected) fun t => t ∈ tokens ∧ t.kind = kind := by
  have reads : Reads tokens fine (Parser.expect kind expected) fun _ => True :=
    .then_ (check kind) fun _ => .ite (fun _ => advance.any) fun _ => unexpected _
  refine reads.also fun s same => Succeeds.expect.mono ?_
  rintro _ _ ⟨rfl, is, -⟩
  exact ⟨same ▸ s.token_mem, is⟩

theorem spanFrom (start : Span) : Reads tokens fine (Parser.spanFrom start) fun _ => True :=
  .then_ get fun _ => pure trivial rfl

theorem finishStatement (start : Span) :
    Reads tokens fine (Parser.finishStatement start) fun _ => True :=
  .then_ current fun _ => .ite (fun _ => .then_ skip fun _ => spanFrom start) fun _ =>
    .ite (fun _ => .then_ (spanFrom start) fun _ => .then_ skip fun _ => pure trivial rfl)
      fun _ => unexpected _

section Push

variable {kind : NodeKind} {ids : List Nat}

/-- A node takes its children and the expression that names it, if there is one. -/
theorem push (names : ∀ name ∈ kind.typeNames, fine name) (span : Span)
    (all : n = ids.length + (if kind.isNamedByExpression then 1 else 0)) :
    One tokens fine n (Parser.push kind span ids) := by
  intro s here kept r s' run
  rw [Heeds.push_run] at run
  split at run
  · cases run
    refine ⟨⟨here, ⟨kept.names, kept.scope, ?_⟩, id⟩, ?_⟩
    · rw [kinds_adopt]
      intro other member
      rcases List.mem_append.mp member with before | new
      · exact kept.nodes other before
      · rw [List.mem_singleton.mp new]
        exact names
    · rintro _ ⟨⟩
      refine ⟨trivial, fun _ => ?_⟩
      rw [surplus_adopt, all]
      split
      · simp
      · simp
        omega
  · cases run

theorem finish (names : ∀ name ∈ kind.typeNames, fine name) (start : Span)
    (all : n = ids.length + (if kind.isNamedByExpression then 1 else 0)) :
    One tokens fine n (Parser.finish kind start ids) :=
  .then_ (spanFrom start) fun _ => push names _ all

section Quiet

variable (quiet : kind.isQuiet = true)
include quiet

theorem names_of_quiet : ∀ name ∈ kind.typeNames, fine name := by
  have none : kind.typeNames = [] := by
    simp only [NodeKind.isQuiet, Bool.and_eq_true, List.isEmpty_iff] at quiet
    exact quiet.1
  simp [none]

theorem all_of_quiet (all : n = ids.length) :
    n = ids.length + (if kind.isNamedByExpression then 1 else 0) := by
  have unnamed : kind.isNamedByExpression = false := by
    simp only [NodeKind.isQuiet, Bool.and_eq_true, Bool.not_eq_true'] at quiet
    exact quiet.2
  simp [all, unnamed]

theorem pushQuiet (span : Span) (all : n = ids.length) :
    One tokens fine n (Parser.push kind span ids) :=
  push (names_of_quiet quiet) span (all_of_quiet quiet all)

theorem finishQuiet (start : Span) (all : n = ids.length) :
    One tokens fine n (Parser.finish kind start ids) :=
  finish (names_of_quiet quiet) start (all_of_quiet quiet all)

end Quiet

end Push

theorem setDocComment (i : Nat) (doc : Option String) :
    Reads tokens fine (Parser.setDocComment i doc) fun _ => True := by
  intro s here kept r s' run
  have unfolded : Parser.setDocComment i doc s =
      if i < s.nodes.size then some (.ok (), { s with nodes := annotate s.nodes i doc })
      else none := by
    change (if i < s.nodes.size then _ else _ : Parser Unit) s = _
    split <;> rfl
  rw [unfolded] at run
  split at run
  · cases run
    refine ⟨⟨here, ⟨kept.names, kept.scope, ?_⟩, id⟩, fun _ _ => ⟨trivial, fun _ => ?_⟩⟩
    · rw [kinds_annotate]
      exact kept.nodes
    · rw [surplus_annotate]
  · cases run

theorem nested (upholds : Upholds tokens fine n p w Q) :
    Upholds tokens fine n (Parser.nested p) w Q := by
  have enter : Reads tokens fine Parser.enterNesting fun _ => True :=
    .then_ (modify (fun _ here kept => ⟨here, ⟨kept.names, kept.scope, kept.nodes⟩, id⟩) fun _ => rfl)
      fun _ => .then_ get fun _ => .ite (fun _ => throw) fun _ => pure trivial rfl
  refine .then_ enter fun _ s here kept r s' run => ?_
  obtain ⟨⟨result, s₁⟩, read, same⟩ := Option.bind_eq_some_iff.mp run
  cases same
  obtain ⟨upkeep, holds⟩ := upholds s here kept _ s₁ read
  exact ⟨⟨upkeep.tokens, ⟨upkeep.kept.names, upkeep.kept.scope, upkeep.kept.nodes⟩, upkeep.clean⟩,
    holds⟩

/-- A reader in another scope. -/
theorem withScope {scope : Option TypeScope} (upholds : Upholds tokens fine n p w Q)
    (is : ∀ inner, scope = some inner → inner.Fine fine) :
    Upholds tokens fine n (Parser.withScope scope p) w Q := by
  intro s here kept r s' run
  have unfolded : Parser.withScope scope p s =
      (p { s with scope }).bind fun out => some (out.1, { out.2 with scope := s.scope }) := rfl
  rw [unfolded] at run
  obtain ⟨⟨result, s₁⟩, read, same⟩ := Option.bind_eq_some_iff.mp run
  cases same
  have kept' : NamesFine fine { s with scope } := ⟨kept.names, is, kept.nodes⟩
  obtain ⟨upkeep, holds⟩ := upholds { s with scope } here kept' _ s₁ read
  exact ⟨⟨upkeep.tokens, ⟨upkeep.kept.names, kept.scope, upkeep.kept.nodes⟩, upkeep.clean⟩, holds⟩

theorem synchronize : Reads tokens fine Parser.synchronize fun _ => True := by
  refine .then_ skip fun _ => repeated fun _ => .then_ current fun token => ?_
  have skips (next : ForInStep Unit) :
      Reads tokens fine (do Parser.skip; return next) fun _ => True :=
    .then_ skip fun _ => pure trivial rfl
  cases token.kind with
  | eof => exact pure trivial rfl
  | rightBrace => exact pure trivial rfl
  | semicolon => exact skips _
  | closeTag => exact skips _
  | keyword word => exact .ite (fun _ => pure trivial rfl) fun _ => skips _
  | _ => exact skips _

/-- Behind a noted error nothing is counted. -/
theorem recover (depth : Nat) (e : ParseError) (v : Unit → Nat) :
    Upholds tokens fine n (Parser.recover depth e) v fun _ => True := by
  refine .ite (fun _ => ?_) fun _ => throw
  intro s here kept r s' run
  rw [run_bind] at run
  have reads : Reads tokens fine Parser.synchronize fun _ => True := synchronize
  obtain ⟨upkeep, -⟩ := reads { s with errors := s.errors ++ [e], depth } here
    ⟨kept.names, kept.scope, kept.nodes⟩ r s' run
  have noted (none : s'.errors = []) : False := by simpa using upkeep.clean none
  exact ⟨⟨upkeep.tokens, upkeep.kept, fun none => (noted none).elim⟩,
    fun _ _ => ⟨trivial, fun none => (noted none).elim⟩⟩

theorem recovering {stop : Token → Bool} {item : Parser (List Nat)}
    (each : Many tokens fine item) : Many tokens fine (Parser.recovering stop item) := by
  refine collect fun ids => .then_ get fun s => .ite (fun _ => pure trivial rfl) fun _ =>
    .tryCatch ?_ fun e m => ?_
  · exact each.bind fun more _ => pure trivial (by simp)
  · rw [← Nat.zero_add m]
    exact .pass (recover s.depth e fun _ => ids.length) fun _ _ => pure trivial (Nat.zero_add _)

theorem fine_of_late_target {keyword : LateKeyword} {scope : Option TypeScope} {target : Option String}
    (is : ∀ inner, scope = some inner → inner.Fine fine)
    (known : Parser.lateTarget keyword scope = .ok target) : ∀ name ∈ target.toList, fine name := by
  cases scope with
  | none => cases known
  | some scope =>
    have kept := is scope rfl
    cases keyword with
    | parent_ =>
      simp only [Parser.lateTarget] at known
      split at known
      · split at known
        next parent same =>
          cases known
          simpa using kept.parent parent same
        next => cases known
      · cases known
        simp
    | _ =>
      cases known
      simpa using kept.name

section Judgement

variable (naming : NamedBy tokens fine)
include naming

def facts : Facts where
  held token := token ∈ tokens
  written := WrittenName
  fine := fine
  bound _ _ := True
  seen _ s := s.tokens = tokens ∧ NamesFine fine s
  counting := True
  bound_of _ := trivial
  held_current seen := seen.1 ▸ ParserState.token_mem _
  fine_resolve seen written := seen.2.names.resolve naming.law written
  fine_qualify seen member word := by
    have segment := naming.lettered.segment _ member (by rw [word]; rfl)
    exact naming.law.qualified _ (seen.2.names.qualify (.segment segment))
  bound_late seen late := ⟨trivial, fine_of_late_target seen.2.scope late⟩
  unbraced _ member := naming.lettered.unbraced _ member

def judgement : Judgement where
  toLikeness := .same
  facts := facts naming
  node _ _ _ := True
  dollar _ _ := True
  Says _ _ given n p _ v := given → Upholds tokens fine n p v.nodes v.holds
  node_mono low _ := low
  dollar_of_node := id
  node_of_dollar := id
  says_pure _ holds all known := pure (holds known) (all known trivial)
  says_bind := fun {_ _ _ _ _ _ _ _ _ _ _ v _} first second known =>
    pass (first known) fun a is => second a a (v.refl a) ⟨known, is⟩
  says_weaken _ imp said known := said (imp known)
  says_holding imp said known := by
    intro s here kept r s' run
    obtain ⟨upkeep, holds⟩ := said known s here kept r s' run
    refine ⟨upkeep, ?_⟩
    rintro a rfl
    exact (holds a rfl).imp_left (imp s a s' run)
  says_stuck _ := stuck
  says_throw _ _ _ := throw
  says_look next known := fun s here kept =>
    next s s (.refl _ s) ⟨here, kept⟩ (fun _ inexact => (inexact trivial).elim) known s here kept
  says_skip _ := skip
  says_name said known :=
    (said known).also fun s same _ _ run => written_of_name (same ▸ naming.lettered) run
  says_push _ names _ _ _ all known := push (names known) _ (all known trivial)
  says_take takes _ _ _ _ all known := pushQuiet (NodeKind.quiet_of_takes_up takes) _ (all known trivial)
  says_dollar _ _ _ := pushQuiet rfl _ rfl
  says_doc i doc _ := setDocComment i doc
  says_within is said known := withScope (said known) fun inner same =>
    let ⟨name, parent⟩ := is known inner same
    ⟨name, parent⟩
  says_recovering _ said known := (recovering (said known).any).mono fun _ _ _ _ => trivial

omit naming in
theorem of_said {naming : NamedBy tokens fine} {q : Parser α}
    {v : Verdict (judgement naming).exact α}
    (said : (judgement naming).Says none True True n p q v) :
    Upholds tokens fine n p v.nodes v.holds :=
  said trivial

end Judgement

end Upholds

end PhpAnalyser
