import PhpAnalyser.Syntax.Interchange
/-!
Syntax trees restored from their JSON form.
-/
namespace PhpAnalyser

namespace Json

def text? : Json → Option String
  | string value => some value
  | _ => none

def bool? : Json → Option Bool
  | bool value => some value
  | _ => none

def nat? : Json → Option Nat
  | number text => text.toNat?
  | _ => none

def int? : Json → Option Int
  | number text => text.toInt?
  | _ => none

def list? (f : Json → Option α) : Json → Option (List α)
  | array items => items.mapM f
  | _ => none

def optional? (f : Json → Option α) : Json → Option (Option α)
  | null => some none
  | value => (f value).map some

def field? (f : Json → Option α) (name : String) : Json → Option α
  | object fields => (List.lookup name fields).bind f
  | _ => none

def choice? (label : α → String) (choices : List α) (value : Json) : Option α :=
  value.text?.bind fun name => choices.find? fun choice => label choice == name

theorem list_texts (items : List String) : (texts items).list? text? = some items := by
  induction items with
  | nil => rfl
  | cons item items ih =>
    simp only [texts, list?, List.map_cons, List.mapM_cons] at ih ⊢
    simp [ih, text?]

theorem optional_string (value : Option String) :
    (optional string value).optional? text? = some value := by
  cases value <;> rfl

end Json

open Json

/-- The number without the zeros at the end of its fraction. -/
def Decimal.reduced (units : Int) : Nat → Decimal
  | 0 => ⟨units, 0⟩
  | places + 1 => if units % 10 = 0 then reduced (units / 10) places else ⟨units, places + 1⟩

def Decimal.ofText? (text : String) : Option Decimal :=
  let (whole, fraction) := text.toList.span (· ≠ '.')
  (String.ofList (whole ++ fraction.drop 1)).toInt?.map (reduced · (fraction.length - 1))

def Position.ofJson? (value : Json) : Option Position := do
  return ⟨← value.field? nat? "line", ← value.field? nat? "column"⟩

def Span.ofJson? (value : Json) : Option Span := do
  return ⟨← value.field? nat? "start", ← value.field? nat? "end",
    ← value.field? Position.ofJson? "begin", ← value.field? Position.ofJson? "last"⟩

def Visibility.ofJson? : Json → Option Visibility :=
  choice? label [public_, protected_, private_]

def Modifiers.ofJson? (value : Json) : Option Modifiers := do
  return ⟨← value.field? (optional? Visibility.ofJson?) "visibility",
    ← value.field? bool? "is_static", ← value.field? bool? "is_abstract",
    ← value.field? bool? "is_final"⟩

theorem Modifiers.of_json_to_json (m : Modifiers) : ofJson? m.toJson = some m := by
  rcases m with ⟨_ | _ | _ | _, _, _, _⟩ <;> rfl

def LiteralKind.ofJson? : Json → Option LiteralKind := choice? label [integer, float, string]

def InclusionKind.ofJson? : Json → Option InclusionKind :=
  choice? label [include_, includeOnce, require, requireOnce]

def LateKeyword.ofJson? : Json → Option LateKeyword := choice? label [self_, parent_, static_]

def Adaptation.ofJson? : Json → Option Adaptation
  | object [("Precedence", value)] => (value.field? (list? text?) "excluded").map precedence
  | object [("Alias", value)] => do
    return .rename (← value.field? (optional? Visibility.ofJson?) "visibility")
      (← value.field? (optional? text?) "alias")
  | _ => none

theorem Adaptation.of_json_to_json (a : Adaptation) : ofJson? a.toJson = some a := by
  rcases a with excluded | ⟨_ | _ | _ | _, _ | _⟩
  case precedence =>
    change ((texts excluded).list? text?).map precedence = _
    rw [list_texts]; rfl
  all_goals rfl

namespace NodeKind

def plainKinds : List NodeKind :=
  [compilationUnit, constantDeclaration, formalParameters, scope, expressionStatement, echo, if_,
    elseIf, else_, while_, doWhile, for_, forInit, forCondition, forUpdate, switch, break_,
    continue_, return_, try_, finally_, throw_, global, staticVariables, unset, conditional,
    logicalOr, logicalAnd, logicalXor, booleanOr, booleanAnd, preIncrement, preDecrement,
    postIncrement, postDecrement, instanceOf, allocation, clone, parenthesized,
    variableVariable, functionCall, arguments, arrayIndex, stringIndex, closureUses, isset,
    empty, exit, print]

def ofFields? (label : String) (value : Json) : Option NodeKind :=
  let text := value.field? text?
  let texts := value.field? (list? text?)
  let optionalText := value.field? (optional? text?)
  let bool := value.field? bool?
  let modifiers := value.field? Modifiers.ofJson? "modifiers"
  match label with
  | "Namespace" => namespace_ <$> text "name"
  | "UseImport" => useImport <$> text "name" <*> text "alias"
  | "Class" => class_ <$> text "name" <*> modifiers <*> optionalText "parent" <*> texts "interfaces"
  | "Interface" => interface_ <$> text "name" <*> texts "parents"
  | "Trait" => trait_ <$> text "name"
  | "Function" => function_ <$> text "name" <*> bool "by_ref"
  | "Method" => method <$> text "name" <*> modifiers <*> bool "by_ref"
  | "PropertyDeclaration" => propertyDeclaration <$> modifiers
  | "Property" => property <$> text "name"
  | "ConstantDeclarator" => constantDeclarator <$> text "name"
  | "FormalParameter" =>
    formalParameter <$> text "name" <*> optionalText "type_hint" <*> bool "by_ref" <*>
      bool "variadic"
  | "TraitUse" => traitUse <$> texts "traits"
  | "TraitAdaptation" =>
    traitAdaptation <$> optionalText "trait_name" <*> text "method" <*>
      value.field? Adaptation.ofJson? "action"
  | "Foreach" => foreach <$> bool "by_ref"
  | "SwitchLabel" => switchLabel <$> bool "is_default"
  | "Catch" => catch_ <$> texts "types" <*> text "variable"
  | "Assignment" => assignment <$> text "op"
  | "Binary" => binary <$> text "op"
  | "Unary" => unary <$> text "op"
  | "Cast" => cast <$> text "to"
  | "Variable" => variable_ <$> text "name"
  | "Literal" => literal <$> value.field? LiteralKind.ofJson? "kind" <*> text "image"
  | "Identifier" => identifier <$> text "name"
  | "Constant" => constant <$> text "name"
  | "ClassReference" => classReference <$> text "name"
  | "LateBound" => do
    return lateBound ⟨← value.field? LateKeyword.ofJson? "keyword", ← optionalText "target"⟩
  | "MemberPrimaryPrefix" => memberAccess <$> bool "is_static"
  | "PropertyPostfix" => propertyMember <$> text "name"
  | "MethodPostfix" => methodMember <$> text "name"
  | "ConstantPostfix" => constantMember <$> text "name"
  | "Array" => array <$> bool "short"
  | "ArrayElement" => arrayElement <$> bool "by_ref"
  | "Closure" => closure <$> bool "is_static" <*> bool "by_ref"
  | "Include" => inclusion <$> value.field? InclusionKind.ofJson? "kind"
  | _ => none

def ofJson? : Json → Option NodeKind
  | object [(label, value)] => ofFields? label value
  | value => choice? label plainKinds value

theorem of_json_to_json (kind : NodeKind) : ofJson? kind.toJson = some kind := by
  cases kind
  case class_ name modifiers parent interfaces =>
    change class_ <$> some name <*> Modifiers.ofJson? modifiers.toJson <*>
      (optional string parent).optional? text? <*> (texts interfaces).list? text? = _
    rw [Modifiers.of_json_to_json, optional_string, list_texts]; rfl
  case interface_ name parents =>
    change interface_ <$> some name <*> (texts parents).list? text? = _
    rw [list_texts]; rfl
  case method name modifiers byRef =>
    change method <$> some name <*> Modifiers.ofJson? modifiers.toJson <*> some byRef = _
    rw [Modifiers.of_json_to_json]; rfl
  case propertyDeclaration modifiers =>
    change propertyDeclaration <$> Modifiers.ofJson? modifiers.toJson = _
    rw [Modifiers.of_json_to_json]; rfl
  case formalParameter name typeHint byRef variadic =>
    change formalParameter <$> some name <*> (optional string typeHint).optional? text? <*>
      some byRef <*> some variadic = _
    rw [optional_string]; rfl
  case traitUse traits =>
    change traitUse <$> (texts traits).list? text? = _
    rw [list_texts]; rfl
  case traitAdaptation traitName method action =>
    change traitAdaptation <$> (optional string traitName).optional? text? <*> some method <*>
      Adaptation.ofJson? action.toJson = _
    rw [optional_string, Adaptation.of_json_to_json]; rfl
  case catch_ types bound =>
    change catch_ <$> (texts types).list? text? <*> some bound = _
    rw [list_texts]; rfl
  case literal kind image => cases kind <;> rfl
  case inclusion kind => cases kind <;> rfl
  case lateBound reference =>
    rcases reference with ⟨keyword, _ | target⟩ <;> cases keyword <;> rfl
  all_goals rfl

end NodeKind

def MetaValue.ofJson? : Json → Option MetaValue
  | object [("Bool", value)] => value.bool?.map bool
  | object [("Int", value)] => value.int?.map int
  | object [("Float", number digits)] => (Decimal.ofText? digits).map float
  | object [("Text", value)] => value.text?.map text
  | _ => none

def nodeReference? (file : Nat) (value : Json) : Option Nat := do
  guard ((← value.field? nat? "file") = file)
  value.field? nat? "index"

def metadata? : Json → Option (SortedMap MetaValue)
  | object fields => fields.mapM fun (key, value) => return (key, ← MetaValue.ofJson? value)
  | _ => none

def Node.ofJson? (file : Nat) (value : Json) : Option Node := do
  return ⟨← value.field? NodeKind.ofJson? "kind", ← value.field? Span.ofJson? "span",
    ← value.field? (optional? (nodeReference? file)) "parent",
    ← value.field? (list? (nodeReference? file)) "children",
    ← value.field? (optional? text?) "doc_comment", ← value.field? metadata? "metadata"⟩

def SyntaxTree.toJson (t : SyntaxTree) : Json :=
  object [("file", nat t.file), ("nodes", array (t.nodes.toList.map (·.toJson t.file))),
    ("root", nat t.root)]

def SyntaxTree.ofJson? (value : Json) : Option SyntaxTree := do
  let file ← value.field? nat? "file"
  return ⟨file, (← value.field? (list? (Node.ofJson? file)) "nodes").toArray,
    ← value.field? nat? "root"⟩

end PhpAnalyser
