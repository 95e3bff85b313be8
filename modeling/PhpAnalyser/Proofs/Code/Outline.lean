import PhpAnalyser.Measure.Complexity
import PhpAnalyser.Measure.ClassLevel
import PhpAnalyser.Proofs.Code.Marking
/-!
What a report reads of a declaration: its outline tells the file by name and the package by key,
and has none of the numbers that a run gives to files and declarations.
-/
namespace PhpAnalyser

def packageName (space : String) : String := if space = "" then globalPackage else space

structure CallableOutline where
  node : Nat
  name : String
  visibility : Visibility
  complexity : Option Complexity
  deriving DecidableEq, Repr

structure FunctionOutline where
  file : String
  space : String
  callable : CallableOutline
  deriving DecidableEq, Repr

structure TypeOutline where
  file : String
  space : String
  node : Nat
  kind : TypeKind
  name : String
  isAbstract : Bool
  parent : Option TypeReference
  interfaces : Nat
  methods : List CallableOutline
  properties : List (String × Visibility)
  deriving DecidableEq, Repr

def FunctionOutline.key (o : FunctionOutline) : String := symbolKey o.callable.name

def TypeOutline.key (o : TypeOutline) : String := symbolKey o.name

abbrev FileTable := Nat → Option SourceFile

def FileTable.nameOf (files : FileTable) (file : Nat) : String := (files file).elim "" (·.name)

def FileTable.complexity (files : FileTable) (file : Nat) (body : Option Nat) : Option Complexity :=
  (files file).map fun f => .ofBody f.tree body

def Callable.outline (files : FileTable) (c : Callable) : CallableOutline :=
  ⟨c.node, c.qualifiedName, c.visibility, files.complexity c.file c.body⟩

def Property.outline (p : Property) : String × Visibility := (p.name, p.visibility)

namespace CodeModel

variable (m : CodeModel) (files : FileTable)

def spaceOf (package : Nat) : String := (m.package? package).elim "" fun p => symbolKey p.name

def functionOutline (c : Callable) : FunctionOutline :=
  ⟨files.nameOf c.file, (Filter.packageOf m c).elim "" m.spaceOf, c.outline files⟩

def typeOutline (d : TypeDecl) : TypeOutline where
  file := files.nameOf d.file
  space := m.spaceOf d.package
  node := d.node
  kind := d.kind
  name := d.qualifiedName
  isAbstract := d.isAbstract
  parent := d.parent
  interfaces := d.interfaces.length
  methods := (m.methodsOf d).map (·.outline files)
  properties := (m.propertiesOf d).map Property.outline

def typeOutlines : List TypeOutline := m.types.toList.map (m.typeOutline files)

def functionOutlines : List FunctionOutline :=
  (m.callables.toList.filter (!·.isMethod)).map (m.functionOutline files)

end CodeModel

namespace SyntaxTree

variable (t : SyntaxTree) (files : FileTable)

def callableOutline (name : String) (visibility : Visibility) (i : Nat) : CallableOutline :=
  ⟨i, name, visibility, files.complexity t.file (t.bodyOf i)⟩

def methodOutline? (typeName : String) (i : Nat) : Option CallableOutline :=
  match t.kind i with
  | .method name modifiers _ =>
    some (t.callableOutline files (typeName ++ "::" ++ name) modifiers.effective i)
  | _ => none

def propertyOutline? (modifiers : Modifiers) (i : Nat) : Option (String × Visibility) :=
  match t.kind i with
  | .property name => some (name, modifiers.effective)
  | _ => none

def propertyOutlines (i : Nat) : List (String × Visibility) :=
  match t.kind i with
  | .propertyDeclaration modifiers => (t.children i).filterMap (t.propertyOutline? modifiers)
  | _ => []

def functionOutline? (entry : String × Nat) : Option FunctionOutline :=
  match t.kind entry.2 with
  | .function_ name _ =>
    some ⟨files.nameOf t.file, symbolKey (packageName entry.1),
      t.callableOutline files name .public_ entry.2⟩
  | _ => none

def typeOutline? (entry : String × Nat) : Option TypeOutline :=
  (Registration.head? (t.kind entry.2)).map fun head =>
    { file := files.nameOf t.file
      space := symbolKey (packageName entry.1)
      node := entry.2
      kind := head.kind
      name := head.name
      isAbstract := head.kind ≠ .class_ || head.modifiers.isAbstract
      parent := head.parent.map .ofName
      interfaces := head.interfaces.length
      methods := (t.children entry.2).filterMap (t.methodOutline? files head.name)
      properties := (t.children entry.2).flatMap t.propertyOutlines }

def functionOutlines : List FunctionOutline :=
  (t.declarations "" t.root).filterMap (t.functionOutline? files)

def typeOutlines : List TypeOutline :=
  (t.declarations "" t.root).filterMap (t.typeOutline? files)

end SyntaxTree

namespace SyntaxTree

/-- Trees that may differ in their notes and in the number of their file. -/
structure SameText (t t' : SyntaxTree) : Prop where
  root : t'.root = t.root
  kind : t'.kind = t.kind
  children : t'.children = t.children

theorem Marked.sameText {t t' : SyntaxTree} (marked : t.Marked t') : t.SameText t' :=
  ⟨marked.root, marked.kind, marked.children⟩

namespace SameText

variable {t t' t'' : SyntaxTree}

theorem trans (first : t.SameText t') (second : t'.SameText t'') : t.SameText t'' :=
  ⟨second.root.trans first.root, second.kind.trans first.kind,
    second.children.trans first.children⟩

theorem declarations (same : t.SameText t') (i : Nat) :
    ∀ space, t'.declarations space i = t.declarations space i := by
  induction i using Nat.strongRecOn with
  | _ i ih =>
    intro space
    have below (space : String) :
        ((t.children i).flatMap fun c => if c < i then t'.declarations space c else []) =
          (t.children i).flatMap fun c => if c < i then t.declarations space c else [] := by
      refine List.flatMap_congr fun c _ => ?_
      split
      · rename_i low
        exact ih c low space
      · rfl
    rw [SyntaxTree.declarations, SyntaxTree.declarations.eq_def t]
    simp only [same.kind, same.children, below]

theorem visit (same : t.SameText t') (skipped : NodeKind → Bool) (i : Nat) :
    t'.visit skipped i = t.visit skipped i := by
  induction i using Nat.strongRecOn with
  | _ i ih =>
    have below :
        ((t.children i).flatMap fun c => if c < i then t'.visit skipped c else []) =
          (t.children i).flatMap fun c => if c < i then t.visit skipped c else [] := by
      refine List.flatMap_congr fun c _ => ?_
      split
      · rename_i low
        exact ih c low
      · rfl
    rw [SyntaxTree.visit, SyntaxTree.visit.eq_def t]
    simp only [same.kind, same.children, below]

theorem body (same : t.SameText t') : t'.bodyOf = t.bodyOf := by
  funext i
  simp only [bodyOf, same.children, same.kind]

theorem complexity (same : t.SameText t') (body : Option Nat) :
    Complexity.ofBody t' body = Complexity.ofBody t body := by
  have visits : t'.visit NodeKind.isNestedDeclaration = t.visit NodeKind.isNestedDeclaration :=
    funext fun i => same.visit _ i
  have kinds : Complexity.kindsOf t' body = Complexity.kindsOf t body := by
    rw [Complexity.kindsOf, Complexity.kindsOf, visits, same.kind]
  rw [Complexity.ofBody, Complexity.ofBody, kinds]

section Outlines

variable {files files' : FileTable} (same : t.SameText t')
  (name : files'.nameOf t'.file = files.nameOf t.file)
  (complexity : files'.complexity t'.file = files.complexity t.file)

include same complexity in
theorem callable_outline (name : String) (visibility : Visibility) (i : Nat) :
    t'.callableOutline files' name visibility i = t.callableOutline files name visibility i := by
  rw [callableOutline, callableOutline, complexity, same.body]

include same complexity in
theorem method_outline (typeName : String) :
    t'.methodOutline? files' typeName = t.methodOutline? files typeName := by
  funext i
  simp only [methodOutline?, same.kind, same.callable_outline complexity]

include same in
theorem property_outlines : t'.propertyOutlines = t.propertyOutlines := by
  have each : t'.propertyOutline? = t.propertyOutline? := by
    funext modifiers i
    simp only [propertyOutline?, same.kind]
  funext i
  simp only [propertyOutlines, same.kind, same.children, each]

include same name complexity

theorem function_outline : t'.functionOutline? files' = t.functionOutline? files := by
  funext entry
  simp only [functionOutline?, same.kind, name, same.callable_outline complexity]

theorem type_outline : t'.typeOutline? files' = t.typeOutline? files := by
  funext entry
  simp only [typeOutline?, same.kind, same.children, name, same.method_outline complexity,
    same.property_outlines]

/-- What a text shows does not depend on the number of its file. -/
theorem outlines : t'.typeOutlines files' = t.typeOutlines files ∧
    t'.functionOutlines files' = t.functionOutlines files := by
  rw [typeOutlines, typeOutlines, functionOutlines, functionOutlines, same.root,
    same.declarations, same.type_outline name complexity, same.function_outline name complexity]
  exact ⟨rfl, rfl⟩

end Outlines

end SameText

end SyntaxTree

namespace Registration

variable {files : FileTable}

/-- Between two stages of the members of a type, methods and properties were added. -/
structure Outlined (files : FileTable) (before after : Registration × TypeDecl)
    (methods : List CallableOutline) (properties : List (String × Visibility)) : Prop where
  tree : after.1.tree = before.1.tree
  name : after.2.qualifiedName = before.2.qualifiedName
  methods : after.1.model.callables.toList.map (·.outline files) =
    before.1.model.callables.toList.map (·.outline files) ++ methods
  properties : after.1.model.properties.toList.map Property.outline =
    before.1.model.properties.toList.map Property.outline ++ properties

namespace Outlined

variable {before middle after : Registration × TypeDecl} {methods methods' : List CallableOutline}
  {properties properties' : List (String × Visibility)}

theorem refl (entry : Registration × TypeDecl) : Outlined files entry entry [] [] := by
  constructor <;> simp

theorem trans (first : Outlined files before middle methods properties)
    (second : Outlined files middle after methods' properties') :
    Outlined files before after (methods ++ methods') (properties ++ properties') where
  tree := second.tree.trans first.tree
  name := second.name.trans first.name
  methods := by rw [second.methods, first.methods, List.append_assoc]
  properties := by rw [second.properties, first.properties, List.append_assoc]

end Outlined

theorem property_outlined (files : FileTable) (modifiers : Modifiers)
    (entry : Registration × TypeDecl) (i : Nat) :
    Outlined files entry (addProperty modifiers entry i) []
      (entry.1.tree.propertyOutline? modifiers i).toList := by
  obtain ⟨r, decl⟩ := entry
  simp only [addProperty, SyntaxTree.propertyOutline?]
  generalize r.tree.kind i = kind
  cases kind with
  | property name => constructor <;> simp [Property.outline, Property.visibility]
  | _ => exact .refl _

theorem properties_outlined (files : FileTable) (modifiers : Modifiers) (children : List Nat)
    (entry : Registration × TypeDecl) :
    Outlined files entry (children.foldl (addProperty modifiers) entry) []
      (children.filterMap (entry.1.tree.propertyOutline? modifiers)) := by
  induction children generalizing entry with
  | nil => exact .refl entry
  | cons i rest ih =>
    have first := property_outlined files modifiers entry i
    have more := first.trans (ih (addProperty modifiers entry i))
    rw [first.tree] at more
    cases found : entry.1.tree.propertyOutline? modifiers i <;>
      simpa [found] using more

theorem member_outlined (files : FileTable) (entry : Registration × TypeDecl) (i : Nat) :
    Outlined files entry (addMember entry i)
      (entry.1.tree.methodOutline? files entry.2.qualifiedName i).toList
      (entry.1.tree.propertyOutlines i) := by
  obtain ⟨r, decl⟩ := entry
  simp only [addMember, SyntaxTree.methodOutline?, SyntaxTree.propertyOutlines]
  generalize r.tree.kind i = kind
  cases kind with
  | method name modifiers byRef =>
    constructor <;>
      simp [addMethod, callable, Callable.outline, Callable.visibility, SyntaxTree.callableOutline]
  | propertyDeclaration modifiers => exact properties_outlined files modifiers _ (r, decl)
  | constantDeclaration => constructor <;> simp
  | traitUse traits => constructor <;> simp
  | _ => exact .refl _

/-- The members of a type are outlined in the order of the text. -/
theorem members_outlined (files : FileTable) (children : List Nat)
    (entry : Registration × TypeDecl) :
    Outlined files entry (children.foldl addMember entry)
      (children.filterMap (entry.1.tree.methodOutline? files entry.2.qualifiedName))
      (children.flatMap entry.1.tree.propertyOutlines) := by
  induction children generalizing entry with
  | nil => exact .refl entry
  | cons i rest ih =>
    have first := member_outlined files entry i
    have more := first.trans (ih (addMember entry i))
    rw [first.tree, first.name] at more
    cases found : entry.1.tree.methodOutline? files entry.2.qualifiedName i <;>
      simpa [found] using more

end Registration

end PhpAnalyser
