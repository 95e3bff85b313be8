import PhpAnalyser.Proofs.Grammar.Success
import PhpAnalyser.Proofs.Replay.Passage
/-!
A stretch of tokens that two texts have in common, and what a reader that has read it in one text
without an error does in the other: the same, as long as it does not look behind the stretch. The
nodes it makes in the other text may stand behind others, so their numbers are shifted.
-/
namespace PhpAnalyser

variable {α β γ : Type}

/-- How the numbers of nodes in a value are shifted. -/
class Renumber (α : Type) where
  shift : Nat → α → α
  shifts : Nat → List α → List α := fun d => List.map (shift d)
  shifts_eq : ∀ d values, shifts d values = values.map (shift d) := by intros; rfl

@[reducible] def Renumber.inert (α : Type) : Renumber α where
  shift _ a := a
  shifts _ values := values
  shifts_eq _ values := (List.map_id' values).symm

instance : Renumber Nat where
  shift d i := i + d

instance [Renumber α] : Renumber (List α) where
  shift := Renumber.shifts

instance [Renumber α] [Renumber β] : Renumber (α × β) where
  shift d pair := (Renumber.shift d pair.1, Renumber.shift d pair.2)

instance [Renumber α] : Renumber (ForInStep α) where
  shift d
    | .done a => .done (Renumber.shift d a)
    | .yield a => .yield (Renumber.shift d a)

instance : Renumber (Option Nat) where
  shift d := Option.map (· + d)

instance : Renumber Unit := .inert Unit
instance : Renumber Bool := .inert Bool
instance : Renumber String := .inert String
instance : Renumber Span := .inert Span
instance : Renumber Token := .inert Token
instance : Renumber Modifiers := .inert Modifiers
instance : Renumber Adaptation := .inert Adaptation
instance : Renumber NodeKind := .inert NodeKind
instance : Renumber (Option String) := .inert (Option String)
instance : Renumber (Option Visibility) := .inert (Option Visibility)

section Lists

variable [Renumber α] (d : Nat)

theorem Renumber.shift_list (values : List α) : shift d values = values.map (shift d) :=
  shifts_eq d values

theorem Renumber.shift_nil : shift d ([] : List α) = [] := shift_list d []

theorem Renumber.shift_singleton (a : α) : shift d [a] = [shift d a] := shift_list d [a]

theorem Renumber.shift_append (xs ys : List α) : shift d (xs ++ ys) = shift d xs ++ shift d ys := by
  rw [shift_list, shift_list, shift_list, List.map_append]

theorem Renumber.shift_snoc (values : List α) (a : α) :
    shift d values ++ [shift d a] = shift d (values ++ [a]) := by
  rw [shift_append, shift_singleton]

end Lists

def Node.shift (d : Nat) (n : Node) : Node :=
  { n with parent := n.parent.map (· + d), children := n.children.map (· + d) }

theorem Node.shift_zero : Node.shift 0 = id := by
  funext n
  simp [Node.shift]

def behind (front nodes : Array Node) : Array Node := front ++ nodes.map (Node.shift front.size)

section Behind

variable {front nodes : Array Node}

@[simp] theorem behind_nil (front : Array Node) : behind front #[] = front := by simp [behind]

@[simp] theorem nil_behind (nodes : Array Node) : behind #[] nodes = nodes := by
  simp [behind, Node.shift_zero]

theorem size_behind : (behind front nodes).size = nodes.size + front.size := by
  simp [behind, Nat.add_comm]

theorem behind_found (i : Nat) :
    (behind front nodes)[i + front.size]? = (nodes[i]?).map (Node.shift front.size) := by
  rw [behind, Array.getElem?_append_right (Nat.le_add_left _ _), Nat.add_sub_cancel,
    Array.getElem?_map]

theorem behind_front {i : Nat} (low : i < front.size) : (behind front nodes)[i]? = front[i]? :=
  Array.getElem?_append_left low

/-- What is changed of one node behind the others. -/
theorem behind_modify {f g : Node → Node} (i : Nat)
    (same : ∀ n, g (n.shift front.size) = (f n).shift front.size) :
    (behind front nodes).modify (i + front.size) g = behind front (nodes.modify i f) := by
  refine Array.ext_getElem? fun j => ?_
  rw [Array.getElem?_modify]
  by_cases low : j < front.size
  · rw [if_neg (by omega), behind_front low, behind_front low]
  · obtain ⟨k, rfl⟩ := Nat.exists_eq_add_of_le' (Nat.le_of_not_lt low)
    rw [behind_found, behind_found, Array.getElem?_modify]
    by_cases here : i = k
    · subst here
      rw [if_pos rfl, if_pos rfl]
      cases nodes[i]? with
      | none => rfl
      | some n => exact congrArg some (same n)
    · rw [if_neg (by omega), if_neg here]

theorem behind_annotate (i : Nat) (doc : Option String) :
    annotate (behind front nodes) (i + front.size) doc = behind front (annotate nodes i doc) :=
  behind_modify i fun _ => rfl

theorem behind_link (parent : Nat) (ids : List Nat) :
    (ids.map (· + front.size)).foldl (setParent (parent + front.size)) (behind front nodes) =
      behind front (ids.foldl (setParent parent) nodes) := by
  induction ids generalizing nodes with
  | nil => rfl
  | cons i ids ih =>
    have one : setParent (parent + front.size) (behind front nodes) (i + front.size) =
        behind front (setParent parent nodes i) := behind_modify i fun _ => rfl
    rw [List.map_cons, List.foldl_cons, one, ih, List.foldl_cons]

theorem behind_adopt (kind : NodeKind) (span : Span) (ids : List Nat) :
    adopt (behind front nodes) kind span (ids.map (· + front.size)) =
      behind front (adopt nodes kind span ids) := by
  rw [adopt, adopt, size_behind, behind_link, behind, behind, Array.map_push, Array.append_push]
  rfl

end Behind

def TokenKind.resumes : TokenKind → Bool
  | keyword .else_ | keyword .elseIf_ | keyword .catch_ | keyword .finally_ => true
  | _ => false

/-- The tokens from `start` up to `stop` are those of another text from `start + gap` on, where
they are read behind the nodes `front`. -/
structure Overlap where
  own : Array Token
  whole : Array Token
  start : Nat
  stop : Nat
  gap : Nat
  front : Array Node
  /-- Whether the names in effect stay the same. -/
  steady : Bool
  shared : ∀ k, start ≤ k → k < stop → whole[k + gap]? = own[k]?
  closed : ∀ t, start < stop → own[stop - 1]? = some t → t.kind.isSeal = true
  bare : ∀ t, own[stop]? = some t ∨ whole[stop + gap]? = some t → t.kind.resumes = false

namespace Overlap

variable (W : Overlap)

abbrev shift [Renumber α] (a : α) : α := Renumber.shift W.front.size a

def Roomy : Prop := W.own.size + W.gap ≤ W.whole.size

end Overlap

/-- Two readers are at the same place of the stretch. Where nothing but close tags have been taken
since its start, their last tokens may not be `known` to be the same. -/
structure Beside (W : Overlap) (known : Bool) (s t : ParserState) : Prop where
  own : s.tokens = W.own
  whole : t.tokens = W.whole
  start_le : W.start ≤ s.place
  place : t.place = s.place + W.gap
  nodes : t.nodes = behind W.front s.nodes
  names : t.names = s.names
  scope : t.scope = s.scope
  last : known = true → t.last = s.last
  depth_le : t.depth ≤ s.depth
  clean : t.errors = []

namespace Beside

variable {W : Overlap} {k : Bool} {s s' t t' : ParserState}

theorem token (beside : Beside W k s t) (inside : s.place < W.stop) : t.token = s.token := by
  have found := W.shared s.place beside.start_le inside
  rw [← beside.place, ← beside.whole, ← beside.own, t.token_at, s.token_at] at found
  exact Option.some.inj found

theorem advance_more (beside : Beside W k s t) (inside : s.place < W.stop)
    (more : s.token.kind ≠ .eof) :
    Beside W (k || decide (s.token.kind ≠ .closeTag)) s.advance t.advance := by
  have token := beside.token inside
  have more' : t.token.kind ≠ .eof := token ▸ more
  refine {
    own := tokens_advance.trans beside.own
    whole := tokens_advance.trans beside.whole
    start_le := ?_
    place := ?_
    nodes := by rw [nodes_advance, nodes_advance, beside.nodes]
    names := by rw [names_advance, names_advance, beside.names]
    scope := by rw [Heeds.scope_advance, Heeds.scope_advance, beside.scope]
    last := fun known => ?_
    depth_le := by rw [depth_advance, depth_advance]; exact beside.depth_le
    clean := errors_advance.trans beside.clean }
  · rw [place_advance more]
    exact Nat.le_succ_of_le beside.start_le
  · rw [place_advance more, place_advance more', beside.place]
    omega
  · rw [last_advance more, last_advance more', token]
    by_cases tag : s.token.kind = .closeTag
    · rw [if_pos tag, if_pos tag]
      exact beside.last (by simpa [tag] using known)
    · rw [if_neg tag, if_neg tag]

theorem advance (beside : Beside W k s t) (inside : s.place < W.stop) :
    Beside W k s.advance t.advance := by
  by_cases ends : s.token.kind = .eof
  · have ends' : t.token.kind = .eof := beside.token inside ▸ ends
    rwa [advance_of_eof ends, advance_of_eof ends']
  · have next := beside.advance_more inside ends
    exact { next with last := fun known => next.last (by simp [known]) }

/-- Behind a token that is no close tag the last token is known. -/
theorem advance_known (beside : Beside W k s t) (inside : s.place < W.stop)
    (more : s.token.kind ≠ .eof) (solid : s.token.kind ≠ .closeTag) :
    Beside W true s.advance t.advance := by
  have next := beside.advance_more inside more
  rwa [decide_eq_true solid, Bool.or_true] at next

/-- Where nothing seals the stretch the next token is part of it. -/
theorem next_lt (beside : Beside W k s t) (inside : s.place < W.stop)
    (opened : s.token.kind.isSeal = false) : s.place + 1 < W.stop := by
  rcases Nat.lt_or_eq_of_le (Nat.succ_le_of_lt inside) with lt | same
  · exact lt
  · have start := beside.start_le
    have shut := W.closed s.token (by omega) (by
      rw [← same, Nat.succ_sub_one, ← beside.own]
      exact s.token_at)
    rw [opened] at shut
    cases shut

theorem more_of_open (opened : s.token.kind.isSeal = false) : s.token.kind ≠ .eof := fun ends => by
  rw [ends] at opened
  cases opened

theorem peek (beside : Beside W k s t) (inside : s.place < W.stop)
    (opened : s.token.kind.isSeal = false) : t.stream.peek 1 = s.stream.peek 1 := by
  have more := more_of_open opened
  have more' : t.token.kind ≠ .eof := beside.token inside ▸ more
  rw [peek_one more, peek_one more']
  exact (beside.advance inside).token (by rw [place_advance more]; exact beside.next_lt inside opened)

theorem peek_two (beside : Beside W k s t) (inside : s.place < W.stop)
    (opened : s.token.kind.isSeal = false) (opened' : (s.stream.peek 1).kind.isSeal = false) :
    t.stream.peek 2 = s.stream.peek 2 := by
  have more := more_of_open opened
  have more' : t.token.kind ≠ .eof := beside.token inside ▸ more
  have next := beside.next_lt inside opened
  rw [← place_advance more] at next
  rw [peek_one more] at opened'
  have beside' := beside.advance inside
  have same := beside'.peek next opened'
  have more₁ := more_of_open opened'
  have more₁' : t.advance.token.kind ≠ .eof := beside'.token next ▸ more₁
  rw [peek_one more₁, peek_one more₁'] at same
  rw [PhpAnalyser.peek_two more more₁, PhpAnalyser.peek_two more' more₁', same]

end Beside

/-- How far a reader may get: it stays inside of the stretch, it may come to its end with a token
that seals it, or it may start there already. -/
inductive Reach where
  | inner
  | closing
  | resting
  deriving DecidableEq

structure Sealed (s s' : ParserState) : Prop where
  place_lt : s.place < s'.place
  ends : ∀ t, s'.tokens[s'.place - 1]? = some t → t.kind.isSeal = true

namespace Reach

def Ends : Reach → ParserState → ParserState → Prop
  | inner, _, _ => True
  | closing, s, s' => Sealed s s'
  | resting, s, s' => s'.place = s.place ∨ Sealed s s'

def Enters (W : Overlap) : Reach → Nat → Prop
  | resting, place => place ≤ W.stop
  | _, place => place < W.stop

def Leaves (W : Overlap) : Reach → Nat → Prop
  | inner, place => place < W.stop
  | _, place => place ≤ W.stop

variable {W : Overlap} {m : Reach} {place : Nat}

theorem enters_of_lt (inside : place < W.stop) : m.Enters W place := by
  cases m with
  | resting => exact Nat.le_of_lt inside
  | _ => exact inside

theorem leaves_of_lt (inside : place < W.stop) : m.Leaves W place := by
  cases m with
  | inner => exact inside
  | _ => exact Nat.le_of_lt inside

theorem Leaves.le (leaves : m.Leaves W place) : place ≤ W.stop := by
  cases m with
  | inner => exact Nat.le_of_lt leaves
  | _ => exact leaves

theorem Leaves.mono {earlier : Nat} (leaves : m.Leaves W place) (le : earlier ≤ place) :
    m.Leaves W earlier := by
  cases m with
  | inner => exact Nat.lt_of_le_of_lt le leaves
  | _ => exact Nat.le_trans le leaves

class Active (m : Reach) : Prop where
  not_resting : m ≠ .resting

instance : Active .inner := ⟨nofun⟩

instance : Active .closing := ⟨nofun⟩

class Calm (m : Reach) : Prop where
  not_closing : m ≠ .closing

instance : Calm .inner := ⟨nofun⟩

instance : Calm .resting := ⟨nofun⟩

theorem Enters.lt [active : m.Active] (enters : m.Enters W place) : place < W.stop := by
  cases m with
  | resting => exact absurd rfl active.not_resting
  | _ => exact enters

end Reach

/-- Where reading ends is a matter of places. -/
theorem Reach.Ends.of_same {m : Reach} {s s₀ s₁ s' : ParserState} (ends : m.Ends s₀ s₁)
    (place : s.place = s₀.place) (stream : s'.stream = s₁.stream) : m.Ends s s' := by
  have place' : s'.place = s₁.place := congrArg TokenStream.position stream
  have tokens : s'.tokens = s₁.tokens := congrArg TokenStream.tokens stream
  have closes : Sealed s₀ s₁ → Sealed s s' := fun closes =>
    ⟨by rw [place, place']; exact closes.place_lt, by rw [tokens, place']; exact closes.ends⟩
  cases m with
  | inner => trivial
  | closing => exact closes ends
  | resting => exact ends.imp (fun same => by rw [place', same, place]) closes

theorem Sealed.after {s s₁ s' : ParserState} (closes : Sealed s₁ s') (le : s.place ≤ s₁.place) :
    Sealed s s' :=
  ⟨Nat.lt_of_le_of_lt le closes.place_lt, closes.ends⟩

theorem Reach.Ends.place_le {s s' : ParserState} (ends : Reach.resting.Ends s s') :
    s.place ≤ s'.place := by
  rcases ends with same | closes
  · exact Nat.le_of_eq same.symm
  · exact Nat.le_of_lt closes.place_lt

/-- What is read next rests where reading has ended, or seals it again. -/
theorem Reach.Ends.rest {m : Reach} {s s₁ s' : ParserState} (ends : m.Ends s s₁)
    (later : Reach.resting.Ends s₁ s') (le : s.place ≤ s₁.place) (tokens : s'.tokens = s₁.tokens) :
    m.Ends s s' := by
  rcases later with same | closes
  · have kept : Sealed s s₁ → Sealed s s' := fun closes =>
      ⟨by rw [same]; exact closes.place_lt, by rw [same, tokens]; exact closes.ends⟩
    cases m with
    | inner => trivial
    | closing => exact kept ends
    | resting => exact ends.imp same.trans kept
  · have all := closes.after le
    cases m with
    | inner => trivial
    | closing => exact all
    | resting => exact .inr all

/-- The other reader succeeds with `b` beside `s'`. It can only be stuck where its text is
shorter. -/
def Follows (W : Overlap) (known : Bool) (q : Parser α) (t : ParserState) (b : α)
    (s' : ParserState) : Prop :=
  (∃ t', q t = some (.ok b, t') ∧ Beside W known s' t') ∨ (q t = none ∧ ¬W.Roomy)

/-- If `p` succeeds without an error on the way, so does `q` beside it. The last tokens are known
to be the same afterwards if `known'` says so. -/
def Replays [Renumber α] (W : Overlap) (known known' : Bool) (m : Reach) (p q : Parser α)
    (s : ParserState) : Prop :=
  ∀ a s', p s = some (.ok a, s') → s'.errors = [] →
    Passage W.steady s s' ∧ m.Ends s s' ∧
      ∀ t, Beside W known s t → m.Enters W s.place → m.Leaves W s'.place →
        Follows W known' q t (W.shift a) s'

namespace Follows

variable {W : Overlap} {k k₁ : Bool} {q : Parser α} {f : α → Parser β} {t : ParserState} {a : α}
  {b : β} {s₁ s' : ParserState}

theorem bind (first : Follows W k₁ q t a s₁)
    (next : ∀ t₁, Beside W k₁ s₁ t₁ → Follows W k (f a) t₁ b s') : Follows W k (q >>= f) t b s' := by
  unfold Follows
  rw [run_bind]
  rcases first with ⟨t₁, run, beside⟩ | ⟨stuck, short⟩
  · rw [run]
    exact next t₁ beside
  · rw [stuck]
    exact .inr ⟨rfl, short⟩

end Follows

namespace Replays

variable {W : Overlap} {k l k' : Bool} {m n : Reach} {s : ParserState}

section Values

variable [Renumber α] [Renumber β] {p q : Parser α} {f f' : α → Parser β}

/-- What is read next stays in the stretch, or seals it. -/
theorem bind [active : m.Active] (first : Replays W k l n p q s)
    (next : ∀ a s₁, p s = some (.ok a, s₁) → Replays W l k' m (f a) (f' (W.shift a)) s₁) :
    Replays W k k' m (p >>= f) (q >>= f') s := by
  intro b s' run clean
  obtain ⟨a, s₁, read, run⟩ := ok_of_bind run
  obtain ⟨passage', ends', follows'⟩ := next a s₁ read b s' run clean
  obtain ⟨passage, -, follows⟩ := first a s₁ read passage'.clean
  have low := passage.place_le
  refine ⟨passage.trans passage', ?_, fun t beside enters leaves => ?_⟩
  · cases m with
    | inner => trivial
    | closing => exact Sealed.after ends' low
    | resting => exact absurd rfl active.not_resting
  · have inside : s₁.place < W.stop := by
      cases m with
      | inner => exact Nat.lt_of_le_of_lt passage'.place_le leaves
      | closing => exact Nat.lt_of_lt_of_le ends'.place_lt leaves
      | resting => exact absurd rfl active.not_resting
    exact (follows t beside (Reach.enters_of_lt (Nat.lt_of_le_of_lt low inside))
      (Reach.leaves_of_lt inside)).bind fun t₁ beside₁ =>
        follows' t₁ beside₁ (Reach.enters_of_lt inside) leaves

/-- What is read next does not depend on the token behind the stretch. -/
theorem then_ (first : Replays W k l m p q s)
    (next : ∀ a s₁, p s = some (.ok a, s₁) → Replays W l k' .resting (f a) (f' (W.shift a)) s₁) :
    Replays W k k' m (p >>= f) (q >>= f') s := by
  intro b s' run clean
  obtain ⟨a, s₁, read, run⟩ := ok_of_bind run
  obtain ⟨passage', ends', follows'⟩ := next a s₁ read b s' run clean
  obtain ⟨passage, ends, follows⟩ := first a s₁ read passage'.clean
  have later := passage'.place_le
  refine ⟨passage.trans passage', ends.rest ends' passage.place_le passage'.tokens,
    fun t beside enters leaves => ?_⟩
  exact (follows t beside enters (leaves.mono later)).bind fun t₁ beside₁ =>
      follows' t₁ beside₁ (Nat.le_trans later leaves.le) leaves.le

theorem inner (replays : Replays W k k' m p q s) : Replays W k k' .inner p q s := by
  intro a s' run clean
  obtain ⟨passage, -, follows⟩ := replays a s' run clean
  exact ⟨passage, trivial, fun t beside enters leaves =>
    follows t beside (Reach.enters_of_lt enters) (Reach.leaves_of_lt leaves)⟩

/-- At a token that cannot be the one behind the stretch a reader is still inside of it. -/
theorem rest (replays : Replays W k k' .closing p q s)
    (other : W.own[W.stop]? ≠ some s.token) : Replays W k k' .resting p q s := by
  intro a s' run clean
  obtain ⟨passage, ends, follows⟩ := replays a s' run clean
  refine ⟨passage, .inr ends, fun t beside enters leaves => follows t beside ?_ leaves⟩
  refine Nat.lt_of_le_of_ne enters fun behind => other ?_
  rw [← behind, ← beside.own]
  exact s.token_at

/-- No word behind the stretch goes on with a statement. -/
theorem resting (replays : Replays W k k' .closing p q s)
    (resumes : s.token.kind.resumes = true) : Replays W k k' .resting p q s :=
  replays.rest fun found => by
    have bare := W.bare s.token (.inl found)
    rw [resumes] at bare
    cases bare

/-- What is known of the last token may be forgotten. -/
theorem forget (replays : Replays W k true m p q s) : Replays W k k' m p q s := by
  intro a s' run clean
  obtain ⟨passage, ends, follows⟩ := replays a s' run clean
  refine ⟨passage, ends, fun t beside enters leaves => ?_⟩
  exact (follows t beside enters leaves).imp_left fun ⟨t', run', beside'⟩ =>
    ⟨t', run', { beside' with last := fun _ => beside'.last rfl }⟩

/-- Two readers that start in other ways do the same. -/
theorem of_eq {p' q' : Parser α} (replays : Replays W k k' m p' q' s) (same : p s = p' s)
    (same' : ∀ t, Beside W k s t → m.Enters W s.place → q t = q' t) :
    Replays W k k' m p q s := by
  intro a s' run clean
  obtain ⟨passage, ends, follows⟩ := replays a s' (same ▸ run) clean
  refine ⟨passage, ends, fun t beside enters leaves => ?_⟩
  unfold Follows
  rw [same' t beside enters]
  exact follows t beside enters leaves

theorem fails (fails : ∀ a s', p s ≠ some (.ok a, s')) : Replays W k k' m p q s :=
  fun a s' run => absurd run (fails a s')

theorem stuck : Replays W k k' m (Parser.stuck : Parser α) q s := .fails fun _ _ => nofun

/-- Where the other text is shorter its reader may be stuck. -/
theorem stuck_beside (replays : Replays W k k' m p q s) (short : ¬W.Roomy) :
    Replays W k k' m p Parser.stuck s := by
  intro a s' run clean
  obtain ⟨passage, ends, -⟩ := replays a s' run clean
  exact ⟨passage, ends, fun t _ _ _ => .inr ⟨rfl, short⟩⟩

theorem throw {e : ParseError} : Replays W k k' m (throw e : Parser α) q s := .fails fun _ _ => nofun

theorem unexpected {expected : List String} :
    Replays W k k' m (Parser.unexpected expected : Parser α) q s := .fails fun _ _ => nofun

theorem pure [calm : m.Calm] {a b : α} (same : b = W.shift a) :
    Replays W k k m (pure a : Parser α) (pure b) s := by
  intro a' s' run clean
  cases run
  subst same
  refine ⟨.refl clean, ?_, fun t beside _ _ => .inl ⟨t, rfl, beside⟩⟩
  cases m with
  | inner => trivial
  | closing => exact absurd rfl calm.not_closing
  | resting => exact .inl rfl

theorem map {h : α → β} (replays : Replays W k k' m p q s)
    (same : ∀ a, h (W.shift a) = W.shift (h a)) :
    Replays W k k' m (h <$> p) (h <$> q) s := by
  rw [← bind_pure_comp, ← bind_pure_comp]
  exact replays.then_ fun a _ _ => .pure (same a)

theorem discarded (replays : Replays W k k' m p q s) :
    Replays W k k' m (discard p) (discard q) s := replays.map fun _ => rfl

theorem ite {condition : Prop} [Decidable condition] {p' q' : Parser α}
    (yes : condition → Replays W k k' m p q s) (no : ¬condition → Replays W k k' m p' q' s) :
    Replays W k k' m (if condition then p else p') (if condition then q else q') s := by
  split
  · exact yes (by assumption)
  · exact no (by assumption)

end Values

section Tokens

variable [Renumber α] {f f' : Token → Parser α}

theorem current [m.Active] (next : Replays W k k' m (f s.token) (f' s.token) s) :
    Replays W k k' m (Parser.current >>= f) (Parser.current >>= f') s := by
  refine next.of_eq rfl fun t beside enters => ?_
  change f' t.token t = f' s.token t
  rw [beside.token (enters.lt)]

/-- A look ahead. At a token that seals the stretch its outcome may not matter. -/
theorem ahead [m.Active] (opened : s.token.kind.isSeal = false →
      Replays W k k' m (f (s.stream.peek 1)) (f' (s.stream.peek 1)) s)
    (shut : s.token.kind.isSeal = true → ∀ u v, Replays W k k' m (f u) (f' v) s) :
    Replays W k k' m (Parser.ahead 1 >>= f) (Parser.ahead 1 >>= f') s := by
  cases kind : s.token.kind.isSeal with
  | false =>
    refine (opened kind).of_eq rfl fun t beside enters => ?_
    change f' (t.stream.peek 1) t = _
    rw [beside.peek (enters.lt) kind]
  | true =>
    intro a s' run clean
    have replays := fun v => shut kind (s.stream.peek 1) v a s' run clean
    refine ⟨(replays s.token).1, (replays s.token).2.1, fun t beside enters leaves => ?_⟩
    exact (replays (t.stream.peek 1)).2.2 t beside enters leaves

end Tokens

end Replays

end PhpAnalyser
