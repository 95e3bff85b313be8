/-!
Places in a source text: byte offsets, lines and columns.
-/
namespace PhpAnalyser

/-- Lines and columns count from one; a column counts characters. -/
structure Position where
  line : Nat
  column : Nat
  deriving DecidableEq, Repr

def Position.start : Position := ⟨1, 1⟩

/-- The place behind a text: a line for each line break, a column for each character since the
last one. -/
def Position.behind (text : List Char) : Position :=
  ⟨text.count '\n' + 1, (text.reverse.takeWhile (· ≠ '\n')).length + 1⟩

/-- The bytes from `start` up to `stop`, with the positions of the first and the last character. -/
structure Span where
  start : Nat
  stop : Nat
  first : Position
  last : Position
  deriving DecidableEq, Repr

namespace Span

def point (offset : Nat) (position : Position) : Span := ⟨offset, offset, position, position⟩

def origin : Span := point 0 .start

def length (s : Span) : Nat := s.stop - s.start

def isEmpty (s : Span) : Bool := s.start == s.stop

def covers (s other : Span) : Bool := s.start ≤ other.start && other.stop ≤ s.stop

/-- The least span around two spans; where an edge coincides, the first span keeps its position. -/
def merge (s other : Span) : Span where
  start := if other.start < s.start then other.start else s.start
  first := if other.start < s.start then other.first else s.first
  stop := if s.stop < other.stop then other.stop else s.stop
  last := if s.stop < other.stop then other.last else s.last

end Span

/-- A place between two characters, `last` being the position of the character before it. -/
structure Cursor where
  offset : Nat
  next : Position
  last : Position
  deriving DecidableEq, Repr

namespace Cursor

def origin : Cursor := ⟨0, .start, .start⟩

def step (p : Cursor) (c : Char) : Cursor where
  offset := p.offset + c.utf8Size
  next := if c = '\n' then ⟨p.next.line + 1, 1⟩ else ⟨p.next.line, p.next.column + 1⟩
  last := p.next

def past (p : Cursor) (text : List Char) : Cursor := text.foldl step p

def spanTo (p q : Cursor) : Span :=
  if q.offset = p.offset then Span.point p.offset p.next else ⟨p.offset, q.offset, p.next, q.last⟩

theorem past_append (p : Cursor) (a b : List Char) : p.past (a ++ b) = (p.past a).past b :=
  List.foldl_append ..

end Cursor

end PhpAnalyser
