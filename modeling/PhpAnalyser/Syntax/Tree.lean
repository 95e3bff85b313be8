import PhpAnalyser.Syntax.Node
import PhpAnalyser.Text.SortedMap
/-!
The syntax tree of one file: an array of nodes in the order of their making, in which every node
comes behind its children.
-/
namespace PhpAnalyser

structure Node where
  kind : NodeKind
  span : Span
  parent : Option Nat
  children : List Nat
  docComment : Option String
  metadata : SortedMap MetaValue
  deriving DecidableEq, Repr

def setParent (parent : Nat) (nodes : Array Node) (child : Nat) : Array Node :=
  nodes.modify child fun n => { n with parent := some parent }

/-- Adds a node behind its children and makes it their parent. -/
def adopt (nodes : Array Node) (kind : NodeKind) (span : Span) (children : List Nat) :
    Array Node :=
  (children.foldl (setParent nodes.size) nodes).push ⟨kind, span, none, children, none, []⟩

def annotate (nodes : Array Node) (i : Nat) (doc : Option String) : Array Node :=
  nodes.modify i fun n => { n with docComment := doc }

inductive VisitMethod where
  | node
  | class_
  | interface_
  | trait_
  | function_
  | method
  | closure
  | if_
  | elseIf
  | while_
  | doWhile
  | for_
  | foreach
  | switch
  | switchLabel
  | catch_
  | conditional
  | booleanAnd
  | booleanOr
  | logicalAnd
  | logicalOr
  | logicalXor
  | assignment
  | allocation
  | lateBound
  | methodMember
  | functionCall
  | variable_
  | literal
  deriving DecidableEq, Repr

def NodeKind.visitMethod : NodeKind → VisitMethod
  | class_ .. => .class_
  | interface_ .. => .interface_
  | trait_ .. => .trait_
  | function_ .. => .function_
  | method .. => .method
  | closure .. => .closure
  | if_ => .if_
  | elseIf => .elseIf
  | while_ => .while_
  | doWhile => .doWhile
  | for_ => .for_
  | foreach .. => .foreach
  | switch => .switch
  | switchLabel .. => .switchLabel
  | catch_ .. => .catch_
  | conditional => .conditional
  | booleanAnd => .booleanAnd
  | booleanOr => .booleanOr
  | logicalAnd => .logicalAnd
  | logicalOr => .logicalOr
  | logicalXor => .logicalXor
  | assignment .. => .assignment
  | allocation => .allocation
  | lateBound .. => .lateBound
  | methodMember .. => .methodMember
  | functionCall => .functionCall
  | variable_ .. => .variable_
  | literal .. => .literal
  | _ => .node

/-- A visitor that keeps a state. A method of its own is given a node and the walk over the node's
children, which it takes or leaves. -/
structure Visitor (σ : Type) where
  own : VisitMethod → Option (Nat → (σ → σ) → σ → σ)

namespace Visitor

variable {σ : Type} (v : Visitor σ)

/-- A method that the visitor lacks is that for all other kinds, and this one is the walk. -/
def call (m : VisitMethod) : Nat → (σ → σ) → σ → σ :=
  ((v.own m).or (v.own .node)).getD fun _ walk => walk

end Visitor

structure SyntaxTree where
  file : Nat
  nodes : Array Node
  root : Nat
  deriving DecidableEq, Repr

namespace SyntaxTree

variable (t : SyntaxTree)

def size : Nat := t.nodes.size

def node? (i : Nat) : Option Node := t.nodes[i]?

/-- The kind of a node; a place without a node counts as an empty scope. -/
def kind (i : Nat) : NodeKind := (t.node? i).elim .scope (·.kind)

def children (i : Nat) : List Nat := (t.node? i).elim [] (·.children)

def parent (i : Nat) : Option Nat := (t.node? i).bind (·.parent)

def ancestorsWithin : Nat → Nat → List Nat
  | 0, _ => []
  | fuel + 1, i =>
    match t.parent i with
    | none => []
    | some p => p :: ancestorsWithin fuel p

def ancestors (i : Nat) : List Nat := t.ancestorsWithin t.size i

def findAncestor (i : Nat) (p : NodeKind → Bool) : Option Nat :=
  (t.ancestors i).find? fun a => p (t.kind a)

def unstack : Nat → List Nat → List Nat
  | 0, _ => []
  | _, [] => []
  | fuel + 1, i :: stack => i :: unstack fuel (t.children i ++ stack)

def descendants (i : Nat) : List Nat := t.unstack t.size (t.children i)

/-- The node and the nodes below it in the order of a visit that does not go below the nodes of
the `skipped` kinds. Children come before their parent in the array. -/
def visit (skipped : NodeKind → Bool) (i : Nat) : List Nat :=
  if skipped (t.kind i) then [i]
  else
    i :: (t.children i).flatMap fun child => if child < i then visit skipped child else []
  termination_by i

def accept (v : Visitor σ) (i : Nat) : σ → σ :=
  v.call (t.kind i).visitMethod i fun s =>
    (t.children i).foldl (fun s child => if child < i then accept v child s else s) s
  termination_by i

def setMetadata (i : Nat) (key : String) (value : MetaValue) : SyntaxTree where
  file := t.file
  nodes := t.nodes.modify i fun n => { n with metadata := n.metadata.put key value }
  root := t.root

def metadata (i : Nat) (key : String) : Option MetaValue :=
  (t.node? i).bind fun n => n.metadata.find? key

end SyntaxTree

end PhpAnalyser
