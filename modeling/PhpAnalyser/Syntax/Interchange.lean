import PhpAnalyser.Syntax.Tree
import PhpAnalyser.Text.Json
/-!
Syntax trees as JSON.
-/
namespace PhpAnalyser

namespace Json

def nat (n : Nat) : Json := number (toString n)

def int (n : Int) : Json := number (toString n)

def texts (items : List String) : Json := array (items.map string)

def optional (f : α → Json) (value : Option α) : Json := value.elim null f

end Json

open Json

def Decimal.text (d : Decimal) : String :=
  let digits := Nat.toDigits 10 d.units.natAbs
  let digits := List.replicate (d.places + 1 - digits.length) '0' ++ digits
  let whole := digits.take (digits.length - d.places)
  let fraction := digits.drop (digits.length - d.places)
  (if d.units < 0 then "-" else "") ++ String.ofList whole ++
    (if fraction.isEmpty then ".0" else "." ++ String.ofList fraction)

def Position.toJson (p : Position) : Json :=
  object [("line", nat p.line), ("column", nat p.column)]

def Span.toJson (s : Span) : Json :=
  object [("start", nat s.start), ("end", nat s.stop), ("begin", s.first.toJson),
    ("last", s.last.toJson)]

def Visibility.label : Visibility → String
  | public_ => "Public"
  | protected_ => "Protected"
  | private_ => "Private"

def Modifiers.toJson (m : Modifiers) : Json :=
  object [("visibility", optional (string ·.label) m.visibility), ("is_static", bool m.isStatic),
    ("is_abstract", bool m.isAbstract), ("is_final", bool m.isFinal)]

def LiteralKind.label : LiteralKind → String
  | integer => "Integer"
  | float => "Float"
  | string => "String"

def InclusionKind.label : InclusionKind → String
  | include_ => "Include"
  | includeOnce => "IncludeOnce"
  | require => "Require"
  | requireOnce => "RequireOnce"

def LateKeyword.label : LateKeyword → String
  | self_ => "SelfType"
  | parent_ => "Parent"
  | static_ => "Static"

def Adaptation.toJson : Adaptation → Json
  | precedence excluded => object [("Precedence", object [("excluded", texts excluded)])]
  | rename visibility newName =>
    object [("Alias", object [("visibility", optional (string ·.label) visibility),
      ("alias", optional string newName)])]

def LateBound.toJson (r : LateBound) : Json :=
  object [("keyword", string r.keyword.label), ("target", optional string r.target)]

namespace NodeKind

def fields : NodeKind → List (String × Json)
  | namespace_ name | trait_ name | property name | constantDeclarator name | variable_ name
  | identifier name | constant name | classReference name | propertyMember name
  | methodMember name | constantMember name => [("name", string name)]
  | useImport name shortName => [("name", string name), ("alias", string shortName)]
  | class_ name modifiers parent interfaces =>
    [("name", string name), ("modifiers", modifiers.toJson), ("parent", optional string parent),
      ("interfaces", texts interfaces)]
  | interface_ name parents => [("name", string name), ("parents", texts parents)]
  | function_ name byRef => [("name", string name), ("by_ref", bool byRef)]
  | method name modifiers byRef =>
    [("name", string name), ("modifiers", modifiers.toJson), ("by_ref", bool byRef)]
  | propertyDeclaration modifiers => [("modifiers", modifiers.toJson)]
  | formalParameter name typeHint byRef variadic =>
    [("name", string name), ("type_hint", optional string typeHint), ("by_ref", bool byRef),
      ("variadic", bool variadic)]
  | traitUse traits => [("traits", texts traits)]
  | traitAdaptation traitName methodName action =>
    [("trait_name", optional string traitName), ("method", string methodName),
      ("action", action.toJson)]
  | foreach byRef | arrayElement byRef => [("by_ref", bool byRef)]
  | switchLabel isDefault => [("is_default", bool isDefault)]
  | catch_ types bound => [("types", texts types), ("variable", string bound)]
  | assignment op | binary op | unary op => [("op", string op)]
  | cast target => [("to", string target)]
  | literal kind image => [("kind", string kind.label), ("image", string image)]
  | lateBound reference =>
    [("keyword", string reference.keyword.label), ("target", optional string reference.target)]
  | memberAccess isStatic => [("is_static", bool isStatic)]
  | array short => [("short", bool short)]
  | closure isStatic byRef => [("is_static", bool isStatic), ("by_ref", bool byRef)]
  | inclusion kind => [("kind", string kind.label)]
  | _ => []

def toJson (kind : NodeKind) : Json :=
  if kind.fields.isEmpty then string kind.label else object [(kind.label, object kind.fields)]

end NodeKind

def MetaValue.toJson : MetaValue → Json
  | bool value => object [("Bool", Json.bool value)]
  | int value => object [("Int", Json.int value)]
  | float value => object [("Float", number value.text)]
  | text value => object [("Text", string value)]

def nodeReference (file i : Nat) : Json := object [("file", nat file), ("index", nat i)]

def Node.toJson (file : Nat) (n : Node) : Json :=
  object [("kind", n.kind.toJson), ("span", n.span.toJson),
    ("parent", optional (nodeReference file) n.parent),
    ("children", array (n.children.map (nodeReference file))),
    ("doc_comment", optional string n.docComment),
    ("metadata", object (n.metadata.map fun (key, value) => (key, value.toJson)))]

end PhpAnalyser
