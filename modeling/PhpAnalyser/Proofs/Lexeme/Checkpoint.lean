import PhpAnalyser.Lexeme.Stream
/-!
Streams of tokens, asked again and again. A stream carries the proof that its place is that of a
token; a bare stream is an array and a number, and looks wherever the number says. Whatever a stream
is asked, the bare one never looks at a place without a token, and a place that was noted can be gone
back to.
-/
namespace PhpAnalyser

inductive StreamCall where
  | next
  | peek (k : Nat)
  | previous
  | mark
  | reset (checkpoint : Nat)
  deriving DecidableEq, Repr

inductive StreamAnswer where
  | token (t : Option Token)
  | checkpoint (place : Nat)
  | done
  deriving DecidableEq, Repr

/-- An array of tokens and a place, which need not be in the array. -/
structure BareStream where
  tokens : Array Token
  place : Nat

namespace BareStream

def start (tokens : List Token) : BareStream := ⟨(TokenStream.close tokens).toArray, 0⟩

/-- The last place. No number is one less than no tokens. -/
def last? (c : BareStream) : Option Nat :=
  if c.tokens.size = 0 then none else some (c.tokens.size - 1)

def step (c : BareStream) : StreamCall → Option (StreamAnswer × BareStream)
  | .next => do
    let t ← c.tokens[c.place]?
    if t.kind = .eof then return (.token none, c)
    return (.token (some t), { c with place := c.place + 1 })
  | .peek k => do
    let last ← c.last?
    let t ← c.tokens[min (c.place + k) last]?
    return (.token (some t), c)
  | .previous => do
    if c.place = 0 then return (.token none, c)
    let t ← c.tokens[c.place - 1]?
    return (.token (some t), c)
  | .mark => return (.checkpoint c.place, c)
  | .reset checkpoint => do
    let last ← c.last?
    return (.done, { c with place := min checkpoint last })

def run (c : BareStream) : List StreamCall → Option (List StreamAnswer × BareStream)
  | [] => return ([], c)
  | call :: calls => do
    let (answer, c) ← c.step call
    let (answers, c) ← c.run calls
    return (answer :: answers, c)

end BareStream

namespace TokenStream

def step (s : TokenStream) : StreamCall → StreamAnswer × TokenStream
  | .next =>
    match s.next? with
    | none => (.token none, s)
    | some (t, s') => (.token (some t), s')
  | .peek k => (.token (some (s.peek k)), s)
  | .previous => (.token s.previous, s)
  | .mark => (.checkpoint s.position, s)
  | .reset checkpoint => (.done, s.moveTo checkpoint)

def after (s : TokenStream) (calls : List StreamCall) : TokenStream :=
  calls.foldl (fun s call => (s.step call).2) s

def answers (s : TokenStream) : List StreamCall → List StreamAnswer
  | [] => []
  | call :: calls => (s.step call).1 :: (s.step call).2.answers calls

def bare (s : TokenStream) : BareStream := ⟨s.tokens, s.position⟩

@[simp] theorem bare_tokens (s : TokenStream) : s.bare.tokens = s.tokens := rfl

@[simp] theorem bare_place (s : TokenStream) : s.bare.place = s.position := rfl

@[simp] theorem after_nil (s : TokenStream) : s.after [] = s := rfl

@[simp] theorem after_cons (s : TokenStream) (call : StreamCall) (calls : List StreamCall) :
    s.after (call :: calls) = (s.step call).2.after calls := rfl

theorem ext {s t : TokenStream} (tokens : s.tokens = t.tokens)
    (position : s.position = t.position) : s = t := by
  cases s
  cases t
  subst tokens position
  rfl

end TokenStream

end PhpAnalyser
