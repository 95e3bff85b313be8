import PhpAnalyser.Proofs.Nesting.Judgement
import PhpAnalyser.Proofs.Production.Unit
/-!
The readers of statements and expressions inside one another, and whole files. However deep a reader
is, it comes back to the depth and the scope at which it was called, also by way of recovery. And a
file is read as by readers that have no count and are not built for more than so many levels.
-/
namespace PhpAnalyser

/-- A reader that gives back the depth and the scope that it found, with its value, with an error
other than that the nesting is too deep, and by way of the recovery from its error. -/
structure Restores (p : Parser α) : Prop where
  success : ∀ s a s', p s = some (.ok a, s') → s'.depth = s.depth ∧ s'.scope = s.scope
  failure : ∀ s e s', p s = some (.error e, s') → e.fault.isTooDeep = false →
    s'.depth = s.depth ∧ s'.scope = s.scope
  recovery : ∀ s e s' s'', p s = some (.error e, s') →
    Parser.recover s.depth e s' = some (.ok (), s'') →
      e.fault.isTooDeep = false ∧ s''.depth = s.depth ∧ s''.scope = s.scope

structure Nested.Restores (g : Nested) : Prop where
  expression : ∀ least, PhpAnalyser.Restores (g.expression least)
  statement : PhpAnalyser.Restores g.statement
  typeBody : ∀ scope stateful,
    PhpAnalyser.Restores (Parser.withScope (some scope) (Parser.members g stateful))
  functionBody : PhpAnalyser.Restores (Parser.withScope none (Parser.functionBody g))

namespace Parser

/-- Readers without a count, built inside one another: what is inside `room` statements and
expressions is refused. -/
def roomFor (mark : ParseFault) : Nat → Nested
  | 0 => ⟨fun _ => overfull mark, overfull mark⟩
  | room + 1 => ⟨fun least => binary (roomFor mark room) least, statement (roomFor mark room)⟩

end Parser

variable {mark : ParseFault} {depth : Nat}

/-- The readers that are nested count as well. -/
structure Nested.Counts (mark : ParseFault) (depth : Nat) (g h : Nested) : Prop where
  fatal : mark.isRecoverable = false
  expression : ∀ power, PhpAnalyser.Counts mark depth (g.expression power) (h.expression power)
  statement : PhpAnalyser.Counts mark depth g.statement h.statement

theorem Nested.Counts.readers {g h : Nested} (inner : Nested.Counts mark depth g h) :
    (PhpAnalyser.Counts.judgement mark depth inner.fatal).Inner g h :=
  ⟨inner.expression, inner.statement⟩

namespace Counts

section Nested

variable {g h : Nested} (inner : Nested.Counts mark depth g h)
include inner

theorem binary (least : Nat) : Counts mark depth (Parser.binary g least) (Parser.binary h least) :=
  of_said (.binary inner.readers least)

theorem statement : Counts mark depth (Parser.statement g) (Parser.statement h) :=
  of_said (.statement inner.readers)

theorem members (stateful : Bool) :
    Counts mark depth (Parser.members g stateful) (Parser.members h stateful) :=
  of_said (.members inner.readers stateful)

theorem functionBody : Counts mark depth (Parser.functionBody g) (Parser.functionBody h) :=
  of_said (.functionBody inner.readers)

end Nested

end Counts

theorem BackAt.outcome {s : ParserState} {x y : Option (Outcome α)} (back : BackAt mark s x y) :
    y = x.map (Outcome.uncounted mark) := by
  cases back with
  | stuck => rfl
  | ok => rfl
  | @error e s' other =>
    have same : e.marked mark = e := by simp [ParseError.marked, other]
    change _ = some (Except.error (e.marked mark), s'.uncounted)
    rw [same]
  | deep => rfl

theorem BackAt.of_ok {s s' : ParserState} {a : α} {y : Option (Outcome α)}
    (back : BackAt mark s (some (.ok a, s')) y) : s'.depth = s.depth ∧ s'.scope = s.scope := by
  cases back with
  | ok level scope => exact ⟨level, scope⟩

theorem BackAt.of_error {s s' : ParserState} {e : ParseError} {y : Option (Outcome α)}
    (back : BackAt mark s (some (.error e, s')) y) (other : e.fault.isTooDeep = false) :
    s'.depth = s.depth ∧ s'.scope = s.scope := by
  cases back with
  | error _ level scope => exact ⟨level, scope⟩
  | deep => cases other

theorem ParseFault.fatal_of_tooDeep {fault : ParseFault} (deep : fault.isTooDeep = true) :
    fault.isRecoverable = false := by
  cases fault with
  | nestingTooDeep => rfl
  | _ => cases deep

/-- Whatever is read without a count, the reader that counts is balanced. -/
theorem Restores.of_counts {p : Parser α} (counts : ∀ depth, ∃ q, Counts mark depth p q) :
    Restores p := by
  have back (s : ParserState) : ∃ y, BackAt mark s (p s) y :=
    (counts s.depth).imp' (· s.uncounted) fun _ counts => counts s rfl
  have failure (s : ParserState) (e : ParseError) (s' : ParserState)
      (run : p s = some (.error e, s')) (other : e.fault.isTooDeep = false) :
      s'.depth = s.depth ∧ s'.scope = s.scope := by
    obtain ⟨y, back⟩ := back s
    exact (run ▸ back).of_error other
  refine ⟨fun s a s' run => ?_, failure, fun s e s' s'' run resumed => ?_⟩
  · obtain ⟨y, back⟩ := back s
    exact (run ▸ back).of_ok
  · cases deep : e.fault.isTooDeep with
    | true =>
      rw [Counts.recover_fatal (ParseFault.fatal_of_tooDeep deep)] at resumed
      cases resumed
    | false =>
      obtain ⟨level, scope⟩ := failure s e s' run deep
      have recovers : Counts mark s.depth (Parser.recover s.depth e) _ := .recover deep s
      obtain ⟨level', scope'⟩ := (resumed ▸ recovers s' level).of_ok
      exact ⟨rfl, level'.trans level, scope'.trans scope⟩

namespace Nested.Counts

variable {g h : Nested}

/-- One more reader around those inside, where there is room for them. -/
theorem around (room : depth < Parser.maxNesting) (inner : Nested.Counts mark (depth + 1) g h) :
    Nested.Counts mark depth
      ⟨fun least => Parser.nested (Parser.binary g least), Parser.nested (Parser.statement g)⟩
      ⟨fun least => Parser.binary h least, Parser.statement h⟩ where
  fatal := inner.fatal
  expression power := .nested room (.binary inner power)
  statement := .nested room (.statement inner)

/-- Where there is no room, the readers refuse whatever is inside. -/
theorem full (fatal : mark.isRecoverable = false) (full : Parser.maxNesting ≤ depth)
    (p : Nat → Parser Nat) (q : Parser (Option Nat)) :
    Nested.Counts mark depth ⟨fun least => Parser.nested (p least), Parser.nested q⟩
      (Parser.roomFor mark (Parser.maxNesting - depth)) := by
  rw [Nat.sub_eq_zero_of_le full]
  exact ⟨fatal, fun _ => .overfull full, .overfull full⟩

/-- The readers of every level come back to the depth at which they are called. With enough levels
left they read what there is room for and refuse the rest. -/
theorem nestedAt (fatal : mark.isRecoverable = false) (levels depth : Nat) :
    ∃ h, Nested.Counts mark depth (Parser.nestedAt levels) h ∧
      (Parser.maxNesting ≤ depth + levels →
        h = Parser.roomFor mark (Parser.maxNesting - depth)) := by
  induction levels generalizing depth with
  | zero =>
    rcases Nat.lt_or_ge depth Parser.maxNesting with room | full
    · have counts : Nested.Counts mark depth (Parser.nestedAt 0)
          ⟨fun _ => Parser.stuck, Parser.stuck⟩ :=
        ⟨fatal, fun _ => .nested room .stuck, .nested room .stuck⟩
      exact ⟨_, counts, fun enough => absurd enough (Nat.not_le_of_lt room)⟩
    · exact ⟨_, .full fatal full _ _, fun _ => rfl⟩
  | succ levels ih =>
    rcases Nat.lt_or_ge depth Parser.maxNesting with room | full
    · obtain ⟨h, inner, same⟩ := ih (depth + 1)
      refine ⟨_, around room inner, fun enough => ?_⟩
      have one_less : Parser.maxNesting - depth = Parser.maxNesting - (depth + 1) + 1 := by omega
      rw [one_less, Parser.roomFor, same (by omega)]
    · exact ⟨_, .full fatal full _ _, fun _ => rfl⟩

theorem nestedAt_room (fatal : mark.isRecoverable = false) (levels depth : Nat)
    (enough : Parser.maxNesting ≤ depth + levels) :
    Nested.Counts mark depth (Parser.nestedAt levels)
      (Parser.roomFor mark (Parser.maxNesting - depth)) := by
  obtain ⟨h, counts, same⟩ := nestedAt fatal levels depth
  exact same enough ▸ counts

theorem outermost (fatal : mark.isRecoverable = false) :
    Nested.Counts mark 0 Parser.outermost (Parser.roomFor mark Parser.maxNesting) :=
  nestedAt_room fatal Parser.maxNesting 0 (Nat.le_add_left _ _)

end Nested.Counts

theorem Nested.restores (levels : Nat) : (Parser.nestedAt levels).Restores := by
  have counts (depth : Nat) :
      ∃ h, Nested.Counts (.tokenStreamEnd []) depth (Parser.nestedAt levels) h :=
    (Nested.Counts.nestedAt rfl levels depth).imp fun _ => And.left
  exact {
    expression := fun least => .of_counts fun depth =>
      (counts depth).imp' (·.expression least) fun _ inner => inner.expression least
    statement := .of_counts fun depth =>
      (counts depth).imp' (·.statement) fun _ inner => inner.statement
    typeBody := fun scope stateful => .of_counts fun depth => by
      obtain ⟨h, inner⟩ := counts depth
      exact ⟨_, Counts.withScope _ (.members inner stateful)⟩
    functionBody := .of_counts fun depth => by
      obtain ⟨h, inner⟩ := counts depth
      exact ⟨_, Counts.withScope _ (.functionBody inner)⟩ }

theorem Counts.compilationUnitBy {g h : Nested} (inner : Nested.Counts mark depth g h) :
    Counts mark depth (Parser.compilationUnitBy g) (Parser.compilationUnitBy h) := by
  have nameless : (judgement mark depth inner.fatal).Nameless :=
    ⟨fun _ => trivial, fun _ => modify (fun _ => rfl) (fun _ => rfl) fun _ => rfl⟩
  exact of_said (.compilationUnitBy inner.readers nameless id)

/-- The depth and the type scope are balanced: the productions give back what they found, whatever
the state and the tokens are. So the depth is the number of statements and expressions being read.
At any depth the readers do what readers without a count do that have room for the levels left, and
find the nesting too deep where those refuse with some fatal `mark`. A file is read as by readers
without a count that refuse what is inside as many others as may be, and nothing else: what was read
before, or recovered from, plays no part. -/
theorem nesting_balanced :
    (∀ levels, (Parser.nestedAt levels).Restores) ∧
    ∀ mark : ParseFault, mark.isRecoverable = false →
      (∀ levels s, Parser.maxNesting ≤ s.depth + levels →
        (∀ least, (Parser.roomFor mark (Parser.maxNesting - s.depth)).expression least s.uncounted =
          ((Parser.nestedAt levels).expression least s).map (Outcome.uncounted mark)) ∧
        (Parser.roomFor mark (Parser.maxNesting - s.depth)).statement s.uncounted =
          ((Parser.nestedAt levels).statement s).map (Outcome.uncounted mark)) ∧
      ∀ stream,
        Parser.compilationUnitBy (Parser.roomFor mark Parser.maxNesting) (.initial stream) =
          (Parser.compilationUnit (.initial stream)).map (Outcome.uncounted mark) := by
  refine ⟨Nested.restores, fun mark fatal => ⟨fun levels s enough => ?_, fun stream => ?_⟩⟩
  · have inner := Nested.Counts.nestedAt_room fatal levels s.depth enough
    exact ⟨fun least => (inner.expression least s rfl).outcome, (inner.statement s rfl).outcome⟩
  · rw [← Parser.compilationUnitBy_outermost]
    exact (Counts.compilationUnitBy (.outermost fatal) (.initial stream) rfl).outcome

def emptyStatementAt (depth : Nat) : ParserState :=
  { ParserState.initial (.ofTokens [⟨.semicolon, ";", .origin, []⟩]) with depth }

/-- An empty statement inside 63 others is read, and the same one inside 64 is refused. -/
theorem nesting_balanced_innermost :
    let mark : ParseFault := .scope "static" .outsideType
    mark.isRecoverable = false ∧
    (Parser.maxNesting ≤ (emptyStatementAt 63).depth + 1 ∧
      (Parser.roomFor mark 1).statement (emptyStatementAt 63).uncounted =
        ((Parser.nestedAt 1).statement (emptyStatementAt 63)).map (Outcome.uncounted mark) ∧
      ((Parser.nestedAt 1).statement (emptyStatementAt 63)).map (fun out => (out.1, out.2.depth)) =
        some (.ok none, 63)) ∧
    Parser.maxNesting ≤ (emptyStatementAt 64).depth + 0 ∧
    (Parser.roomFor mark 0).statement (emptyStatementAt 64).uncounted =
      ((Parser.nestedAt 0).statement (emptyStatementAt 64)).map (Outcome.uncounted mark) ∧
    ((Parser.nestedAt 0).statement (emptyStatementAt 64)).map (·.1) =
      some (.error ⟨.nestingTooDeep 64, .origin⟩) := by
  intro mark
  have rooms := (nesting_balanced.2 mark rfl).1
  have inside : Parser.maxNesting ≤ (emptyStatementAt 63).depth + 1 := by decide
  have full : Parser.maxNesting ≤ (emptyStatementAt 64).depth + 0 := by decide
  exact ⟨rfl, ⟨inside, (rooms 1 _ inside).2, rfl⟩, full, (rooms 0 _ full).2, rfl⟩

end PhpAnalyser
