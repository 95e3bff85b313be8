import PhpAnalyser.Proofs.Production.Statement
/-!
Texts with the same tokens in another layout. Two parsers that read them side by side make the same
nodes but for their spans and find the same errors but for their spans. The rules follow the ways in
which readers are put together; a reader may be given a span, and then the other is given another.
-/
namespace PhpAnalyser

def Node.unplaced (n : Node) : Node := { n with span := .origin }

/-- Two parsers at the same place of texts with the same tokens, with the same nodes and errors but
for their spans. -/
structure Mirrors (s t : ParserState) : Prop where
  place : s.place = t.place
  size : s.tokens.size = t.tokens.size
  alike : ∀ (i : Nat) (a b : Token), s.tokens[i]? = some a → t.tokens[i]? = some b → a.Alike b
  nodes : s.nodes.map Node.unplaced = t.nodes.map Node.unplaced
  names : s.names = t.names
  scope : s.scope = t.scope
  depth : s.depth = t.depth
  errors : s.errors.map (·.fault) = t.errors.map (·.fault)

inductive Matched (R : α → β → Prop) :
    Option (Except ParseError α × ParserState) → Option (Except ParseError β × ParserState) → Prop
  | stuck : Matched R none none
  | error {e f : ParseError} {s t : ParserState} (fault : e.fault = f.fault) (behind : Mirrors s t) :
      Matched R (some (.error e, s)) (some (.error f, t))
  | ok {a : α} {b : β} {s t : ParserState} (holds : R a b) (behind : Mirrors s t) :
      Matched R (some (.ok a, s)) (some (.ok b, t))

/-- Two readers of texts with the same tokens do the same, up to `R`. -/
def Agrees (p : Parser α) (q : Parser β) (R : α → β → Prop) : Prop :=
  ∀ s t, Mirrors s t → Matched R (p s) (q t)

abbrev Blind (p : Parser α) : Prop := Agrees p p Eq

theorem modify_unplaced (change : Node → Node) (blind : ∀ n, (change n).unplaced = change n.unplaced)
    (nodes : Array Node) (i : Nat) :
    (nodes.modify i change).map Node.unplaced = (nodes.map Node.unplaced).modify i change := by
  apply Array.ext_getElem?
  intro j
  simp only [Array.getElem?_map, Array.getElem?_modify]
  split
  · cases nodes[j]? with
    | none => rfl
    | some n => exact congrArg some (blind n)
  · rfl

theorem adopt_unplaced (nodes : Array Node) (kind : NodeKind) (span : Span) (children : List Nat) :
    (adopt nodes kind span children).map Node.unplaced =
      adopt (nodes.map Node.unplaced) kind .origin children := by
  have parents (nodes : Array Node) (parent : Nat) :
      (children.foldl (setParent parent) nodes).map Node.unplaced =
        children.foldl (setParent parent) (nodes.map Node.unplaced) := by
    induction children generalizing nodes with
    | nil => rfl
    | cons child rest ih =>
      rw [List.foldl_cons, ih, setParent,
        modify_unplaced (fun n => { n with parent := some parent }) fun _ => rfl]
      rfl
  rw [adopt, Array.map_push, parents, adopt, Array.size_map]
  rfl

theorem annotate_unplaced (nodes : Array Node) (i : Nat) (doc : Option String) :
    (annotate nodes i doc).map Node.unplaced = annotate (nodes.map Node.unplaced) i doc :=
  modify_unplaced (fun n => { n with docComment := doc }) (fun _ => rfl) nodes i

namespace Mirrors

variable {s t : ParserState} (same : Mirrors s t)
include same

theorem token : s.token.Alike t.token := by
  refine same.alike s.place _ _ s.token_at ?_
  rw [same.place]
  exact t.token_at

theorem peek (k : Nat) : (s.stream.peek k).Alike (t.stream.peek k) := by
  have size : s.stream.tokens.size = t.stream.tokens.size := same.size
  have place : s.stream.position = t.stream.position := same.place
  have low : s.stream.position < s.stream.tokens.size := s.place_lt
  have here : min (s.stream.position + k) (s.stream.tokens.size - 1) =
      min (t.stream.position + k) (t.stream.tokens.size - 1) := by
    rw [size, place]
  refine same.alike (min (s.stream.position + k) (s.stream.tokens.size - 1)) _ _
    (Array.getElem?_eq_getElem _) ?_
  rw [here]
  exact Array.getElem?_eq_getElem _

theorem at_end : s.stream.atEnd = t.stream.atEnd := by
  rw [TokenStream.atEnd, TokenStream.atEnd, (same.peek 0).kind]

theorem nodes_size : s.nodes.size = t.nodes.size := by
  simpa using congrArg Array.size same.nodes

theorem advance : Mirrors s.advance t.advance where
  place := by
    by_cases ends : s.token.kind = .eof
    · rw [advance_of_eof ends, advance_of_eof (same.token.kind ▸ ends)]
      exact same.place
    · rw [place_advance ends, place_advance (same.token.kind ▸ ends), same.place]
  size := by rw [tokens_advance, tokens_advance, same.size]
  alike := by
    rw [tokens_advance, tokens_advance]
    exact same.alike
  nodes := by rw [nodes_advance, nodes_advance, same.nodes]
  names := by rw [names_advance, names_advance, same.names]
  scope := by
    by_cases ends : s.token.kind = .eof
    · rw [advance_of_eof ends, advance_of_eof (same.token.kind ▸ ends), same.scope]
    · rw [advance_of_more ends, advance_of_more (same.token.kind ▸ ends)]
      exact same.scope
  depth := by rw [depth_advance, depth_advance, same.depth]
  errors := by rw [errors_advance, errors_advance, same.errors]

theorem remaining : s.stream.remaining = t.stream.remaining := by
  rw [TokenStream.remaining, TokenStream.remaining]
  exact congrArg₂ (· - ·) same.size same.place

/-- New nodes of the same kind. -/
theorem adopt (kind : NodeKind) (a b : Span) (ids : List Nat) :
    Mirrors { s with nodes := PhpAnalyser.adopt s.nodes kind a ids }
      { t with nodes := PhpAnalyser.adopt t.nodes kind b ids } :=
  { same with nodes := by rw [adopt_unplaced, adopt_unplaced, same.nodes] }

end Mirrors

namespace Matched

variable {R : α → β → Prop} {p : Parser α} {q : Parser β} {s t : ParserState}

theorem bind {f : α → Parser γ} {g : β → Parser δ} {R' : γ → δ → Prop}
    (first : Matched R (p s) (q t)) (second : ∀ a b, R a b → Agrees (f a) (g b) R') :
    Matched R' ((p >>= f) s) ((q >>= g) t) := by
  rw [run_bind, run_bind]
  revert first
  generalize p s = x
  generalize q t = y
  intro first
  cases first with
  | stuck => exact .stuck
  | error fault behind => exact .error fault behind
  | ok holds behind => exact second _ _ holds _ _ behind

theorem tryCatch {q : Parser α} {handler handler' : ParseError → Parser α}
    (first : Matched Eq (p s) (q t))
    (handled : ∀ e f, e.fault = f.fault → Agrees (handler e) (handler' f) Eq) :
    Matched Eq ((MonadExcept.tryCatch p handler) s) ((MonadExcept.tryCatch q handler') t) := by
  rw [run_try_catch, run_try_catch]
  revert first
  generalize p s = x
  generalize q t = y
  intro first
  cases first with
  | stuck => exact .stuck
  | error fault behind => exact handled _ _ fault _ _ behind
  | ok holds behind => exact .ok holds behind

theorem restoring {restore restore' : ParserState → ParserState} (first : Matched R (p s) (q t))
    (keeps : ∀ s t, Mirrors s t → Mirrors (restore s) (restore' t)) :
    Matched R (Parser.restoring restore p s) (Parser.restoring restore' q t) := by
  change Matched R ((p s).bind fun out => some (out.1, restore out.2))
    ((q t).bind fun out => some (out.1, restore' out.2))
  revert first
  generalize p s = x
  generalize q t = y
  intro first
  cases first with
  | stuck => exact .stuck
  | error fault behind => exact .error fault (keeps _ _ behind)
  | ok holds behind => exact .ok holds (keeps _ _ behind)

end Matched

namespace Agrees

variable {p : Parser α} {q : Parser β} {R : α → β → Prop}

theorem bind {f : α → Parser γ} {g : β → Parser δ} {R' : γ → δ → Prop} (first : Agrees p q R)
    (second : ∀ a b, R a b → Agrees (f a) (g b) R') : Agrees (p >>= f) (q >>= g) R' :=
  fun s t same => (first s t same).bind second

/-- The first readers give the same value. -/
theorem then_ {q : Parser α} {f : α → Parser γ} {g : α → Parser δ} {R' : γ → δ → Prop}
    (first : Agrees p q Eq) (second : ∀ a, Agrees (f a) (g a) R') :
    Agrees (p >>= f) (q >>= g) R' := by
  refine first.bind ?_
  rintro a _ rfl
  exact second a

theorem pure {a : α} {b : β} (holds : R a b) : Agrees (pure a) (pure b) R :=
  fun _ _ same => .ok holds same

theorem stuck : Agrees (Parser.stuck : Parser α) (Parser.stuck : Parser β) R := fun _ _ _ => .stuck

theorem throw {e f : ParseError} (fault : e.fault = f.fault) :
    Agrees (throw e : Parser α) (throw f : Parser β) R :=
  fun _ _ same => .error fault same

theorem ite {c c' : Prop} [Decidable c] [Decidable c'] {p p' : Parser α} {q q' : Parser β}
    (same : c ↔ c') (yes : Agrees p q R) (no : Agrees p' q' R) :
    Agrees (if c then p else p') (if c' then q else q') R := by
  by_cases holds : c
  · rw [if_pos holds, if_pos (same.mp holds)]
    exact yes
  · rw [if_neg holds, if_neg (mt same.mpr holds)]
    exact no

theorem get : Agrees (MonadState.get : Parser ParserState) MonadState.get Mirrors :=
  fun _ _ same => .ok same same

theorem modify {change change' : ParserState → ParserState}
    (keeps : ∀ s t, Mirrors s t → Mirrors (change s) (change' t)) :
    Agrees (modify change : Parser PUnit) (modify change') Eq :=
  fun s t same => .ok rfl (keeps s t same)

theorem nested (agrees : Agrees p q R) : Agrees (Parser.nested p) (Parser.nested q) R := by
  have enter : Blind Parser.enterNesting := by
    refine .then_ (modify fun s t same => { same with depth := ?_ }) fun _ => ?_
    · rw [same.depth]
    · exact .bind get fun s t same => .ite (by rw [same.depth]) (throw rfl) (pure rfl)
  refine .then_ enter fun _ s t same => (agrees s t same).restoring fun s t same =>
    { same with depth := ?_ }
  rw [same.depth]

section Loops

variable {step step' : γ → Parser (ForInStep γ)} (each : ∀ b, Agrees (step b) (step' b) Eq)
include each

theorem iterate (fuel : Nat) (b : γ) :
    Agrees (Parser.iterate step fuel b) (Parser.iterate step' fuel b) Eq := by
  induction fuel generalizing b with
  | zero => exact stuck
  | succ fuel ih =>
    refine .then_ (each b) fun r => ?_
    cases r with
    | done b' => exact pure rfl
    | yield b' => exact ih b'

omit each in
theorem remaining : Blind Parser.remaining := .bind get fun _ _ same => pure same.remaining

theorem repeatFrom (b : γ) :
    Agrees (Parser.repeatFrom b step) (Parser.repeatFrom b step') Eq :=
  .then_ remaining fun _ => iterate each _ b

end Loops

theorem current : Agrees Parser.current Parser.current Token.Alike :=
  .bind get fun _ _ same => pure same.token

theorem skip : Blind Parser.skip := modify fun _ _ same => same.advance

theorem push (kind : NodeKind) (a b : Span) (ids : List Nat) :
    Agrees (Parser.push kind a ids) (Parser.push kind b ids) Eq := by
  refine .bind get fun s t same => .ite (by rw [same.nodes_size]) ?_ stuck
  exact fun _ _ _ => .ok same.nodes_size (same.adopt kind a b ids)

theorem setDocComment (i : Nat) {doc doc' : Option String} (same : doc = doc') :
    Agrees (Parser.setDocComment i doc) (Parser.setDocComment i doc') Eq := by
  subst same
  refine .bind get fun s t same => .ite (by rw [same.nodes_size]) ?_ stuck
  refine fun _ _ _ => .ok rfl { same with nodes := ?_ }
  rw [annotate_unplaced, annotate_unplaced, same.nodes]

theorem synchronize : Blind Parser.synchronize := by
  refine .then_ skip fun _ => repeatFrom (fun _ => .bind current fun a b like => ?_) _
  have skips (next : ForInStep Unit) : Blind (do Parser.skip; return next) :=
    .then_ skip fun _ => pure rfl
  rw [like.kind]
  cases b.kind with
  | eof => exact pure rfl
  | rightBrace => exact pure rfl
  | semicolon => exact skips _
  | closeTag => exact skips _
  | keyword word => exact .ite .rfl (pure rfl) (skips _)
  | _ => exact skips _

theorem recover (depth : Nat) {e f : ParseError} (fault : e.fault = f.fault) :
    Agrees (Parser.recover depth e) (Parser.recover depth f) Eq := by
  refine .ite (by rw [fault]) (.then_ (modify fun s t same => ?_) fun _ => synchronize) (throw fault)
  exact { same with
    depth := rfl
    errors := by rw [List.map_append, List.map_append, same.errors, List.map_singleton, fault,
      List.map_singleton] }

/-- Items are read in front of the mark of the end only. -/
theorem recovering {stop : Token → Bool} (told : ∀ a b, a.Alike b → stop a = stop b)
    {item item' : Parser (List Nat)}
    (each : ∀ s t, Mirrors s t → s.token.kind ≠ .eof → Matched Eq (item s) (item' t)) :
    Agrees (Parser.recovering stop item) (Parser.recovering stop item') Eq := by
  refine repeatFrom (fun ids s t same => ?_) _
  change Matched Eq ((if s.stream.atEnd || stop s.stream.current then _ else _ : Parser _) s)
    ((if t.stream.atEnd || stop t.stream.current then _ else _ : Parser _) t)
  have stops : stop s.stream.current = stop t.stream.current := told _ _ same.token
  rw [← same.at_end, ← stops]
  split
  · exact .ok rfl same
  next more =>
    have inside : s.token.kind ≠ .eof := by
      intro ends
      have atEnd : s.stream.atEnd = true := by
        have low : s.stream.position < s.stream.tokens.size := s.place_lt
        have here : min (s.stream.position + 0) (s.stream.tokens.size - 1) = s.stream.position := by
          omega
        rw [TokenStream.atEnd, TokenStream.peek]
        simp only [here]
        exact decide_eq_true ends
      simp [atEnd] at more
    refine .tryCatch ((each s t same inside).bind ?_) fun e f fault => ?_
    · rintro more _ rfl
      exact pure rfl
    · rw [same.depth]
      exact .then_ (recover t.depth fault) fun _ => pure rfl

def likeness : Likeness where
  exact := False
  tokens := Token.Alike
  spans _ _ := True
  tokens_refl := .refl
  tokens_alike := id
  tokens_eq := False.elim
  tokens_span _ := trivial
  spans_refl _ := trivial
  spans_eq := False.elim
  spans_merge _ _ := trivial

theorem sameView {s t : ParserState} (same : Mirrors s t) : SameView likeness s t where
  current := same.token
  peek := same.peek
  remaining := same.remaining
  last := trivial
  names := same.names
  scope := same.scope
  node i := by
    have found : (s.nodes[i]?).map Node.unplaced = (t.nodes[i]?).map Node.unplaced := by
      rw [← Array.getElem?_map, ← Array.getElem?_map, same.nodes]
    cases here : s.nodes[i]? <;> cases there : t.nodes[i]? <;> rw [here, there] at found
    · exact .inl ⟨rfl, rfl⟩
    · cases found
    · cases found
    · next m n =>
      have unplaced : m.unplaced = n.unplaced := Option.some.inj found
      have kind : m.unplaced.kind = n.unplaced.kind := by rw [unplaced]
      exact .inr ⟨m, n, rfl, rfl, kind, trivial⟩

def judgement : Judgement where
  toLikeness := likeness
  facts := .none
  node _ _ _ := True
  dollar _ _ := True
  Says _ front _ _ p q v :=
    ∀ s t, Mirrors s t → (front → s.token.kind ≠ .eof) → Matched v.same (p s) (q t)
  node_mono low _ := low
  dollar_of_node := id
  node_of_dollar := id
  says_pure same _ _ _ _ mirrors _ := .ok same mirrors
  says_bind first second s t same more :=
    (first s t same more).bind fun a b holds s t same => second a b holds s t same False.elim
  says_weaken imp _ said s t same more := said s t same fun here => more (imp here id)
  says_holding _ := id
  says_stuck _ _ _ _ := .stuck
  says_throw _ _ _ _ same _ := .error rfl same
  says_look next s t same more :=
    next s t (sameView same) trivial (fun here _ => more here) s t same id
  says_skip _ _ same _ := .ok rfl same.advance
  says_name := id
  says_push _ _ _ _ _ _ s t same _ := push _ _ _ _ s t same
  says_take _ _ _ _ _ _ s t same _ := push _ _ _ _ s t same
  says_dollar _ _ s t same _ := push _ _ _ _ s t same
  says_doc i _ s t same _ := setDocComment i rfl s t same
  says_within := fun {_ _ inner _ _ _ _ _ _} _ said s t same more => by
    have inside : Mirrors { s with scope := inner } { t with scope := inner } :=
      { same with scope := rfl }
    have restored (s' t' : ParserState) (behind : Mirrors s' t') :
        Mirrors { s' with scope := s.scope } { t' with scope := t.scope } :=
      { behind with scope := same.scope }
    exact (said _ _ inside more).restoring restored
  says_recovering told each s t same _ :=
    recovering told (fun s t same more => each s t same fun _ => more) s t same

theorem of_said {n : Nat} {q : Parser α} {v : Verdict judgement.exact α}
    (said : judgement.Says none False True n p q v) : Agrees p q v.same := by
  have matched : ∀ s t, Mirrors s t → (False → s.token.kind ≠ .eof) →
      Matched v.same (p s) (q t) := said
  exact fun s t same => matched s t same False.elim

end Agrees

end PhpAnalyser
