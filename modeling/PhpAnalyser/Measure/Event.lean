import PhpAnalyser.Code.Walk
/-!
What can be heard of a measurement while it goes on.
-/
namespace PhpAnalyser

inductive EntityKind where
  | package
  | class_
  | interface_
  | trait_
  | function
  | method
  | property
  deriving DecidableEq, Repr

def EntityKind.word : EntityKind → String
  | package => "package"
  | class_ => "class"
  | interface_ => "interface"
  | trait_ => "trait"
  | function => "function"
  | method => "method"
  | property => "property"

def TypeKind.entityKind : TypeKind → EntityKind
  | class_ => .class_
  | interface_ => .interface_
  | trait_ => .trait_

inductive Event where
  | startAnalyzer
  | endAnalyzer
  | startVisit (kind : EntityKind) (name : String)
  | endVisit (kind : EntityKind) (name : String)
  deriving DecidableEq, Repr

namespace Event

def visit (kind : EntityKind) (name : String) (during : List Event) : List Event :=
  startVisit kind name :: during ++ [endVisit kind name]

def analysis (during : List Event) : List Event := startAnalyzer :: during ++ [endAnalyzer]

def method (c : Callable) : List Event := visit .method c.qualifiedName []

def function (c : Callable) : List Event := visit .function c.qualifiedName []

def property (p : Property) : List Event := visit .property p.name []

def type (t : TypeDecl) (during : List Event) : List Event :=
  visit t.kind.entityKind t.qualifiedName during

def package (p : Package) (during : List Event) : List Event := visit .package p.name during

end Event

end PhpAnalyser
