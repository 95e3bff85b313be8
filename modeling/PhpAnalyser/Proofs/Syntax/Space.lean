import PhpAnalyser.Grammar.Naming
import PhpAnalyser.Proofs.Syntax.Operands
/-!
Parts of a tree whose declarations all stand in one namespace.
-/
namespace PhpAnalyser

def namespacePart (name : String) : String :=
  String.ofList ((name.toList.reverse.dropWhile fun c => !isBackslash c).drop 1).reverse

def StandsIn (space name : String) : Prop :=
  ∃ segment : String, '\\' ∉ segment.toList ∧
    name = if space = "" then segment else joinName space segment

theorem drop_segment {segment rest : List Char} (simple : '\\' ∉ segment) :
    (segment ++ rest).dropWhile (fun c => !isBackslash c) =
      rest.dropWhile fun c => !isBackslash c := by
  induction segment with
  | nil => rfl
  | cons c segment ih =>
    have other : (!isBackslash c) = true := by
      have apart : c ≠ '\\' := fun same => simple (same ▸ List.mem_cons_self)
      simp [isBackslash, apart]
    rw [List.cons_append, List.dropWhile_cons, if_pos other]
    exact ih fun inside => simple (List.mem_cons_of_mem c inside)

theorem StandsIn.namespace_part {space name : String} (stands : StandsIn space name) :
    namespacePart name = space := by
  obtain ⟨segment, simple, same⟩ := stands
  have backward : '\\' ∉ segment.toList.reverse := by simpa using simple
  by_cases global : space = ""
  · rw [same, if_pos global, global, namespacePart,
      ← List.append_nil segment.toList.reverse, drop_segment backward]
    rfl
  · have chars : name.toList.reverse =
        segment.toList.reverse ++ '\\' :: space.toList.reverse := by
      rw [same, if_neg global]
      simp [joinName]
    have stops : ('\\' :: space.toList.reverse).dropWhile (fun c => !isBackslash c) =
        '\\' :: space.toList.reverse := List.dropWhile_cons_of_neg (by decide)
    rw [namespacePart, chars, drop_segment backward, stops]
    simp

theorem NameContext.qualify_stands (names : NameContext) {segment : String}
    (simple : '\\' ∉ segment.toList) : StandsIn names.package (names.qualify segment) :=
  ⟨segment, simple, rfl⟩

def Solid (name : String) : Prop := ' ' ∉ name.toList

theorem Solid.empty : Solid "" := List.not_mem_nil

theorem Solid.append {first second : String} (head : Solid first) (tail : Solid second) :
    Solid (first ++ second) := by
  intro inside
  rw [String.toList_append, List.mem_append] at inside
  exact inside.elim head tail

theorem Solid.backslash : Solid "\\" := by
  rw [Solid]
  decide

def Rootless (name : String) : Prop := name.toList.head? ≠ some '\\'

theorem Rootless.drop_eq {name : String} (rootless : Rootless name) :
    dropLeadingBackslashes name = name := by
  unfold Rootless at rootless
  rw [dropLeadingBackslashes]
  cases chars : name.toList with
  | nil => rw [List.dropWhile_nil, ← chars, String.ofList_toList]
  | cons c rest =>
    rw [chars] at rootless
    have other : isBackslash c = false := by simpa [isBackslash] using rootless
    rw [List.dropWhile_cons_of_neg (by simp [other]), ← chars, String.ofList_toList]

theorem Rootless.of_segment {segment : String} (simple : '\\' ∉ segment.toList) :
    Rootless segment := by
  intro first
  exact simple (List.mem_of_head? first)

/-- The start of a name tells whether there is a backslash in front. -/
theorem Rootless.longer {start name : String} (rootless : Rootless start) (nonempty : start ≠ "")
    (longer : start.toList <+: name.toList) : Rootless name := by
  obtain ⟨rest, same⟩ := longer
  rw [Rootless] at rootless ⊢
  rw [← same]
  cases chars : start.toList with
  | nil => exact absurd (String.toList_eq_nil_iff.mp chars) nonempty
  | cons c more => simpa [chars] using rootless

structure Clean (name : String) : Prop where
  solid : Solid name
  rootless : Rootless name

theorem Clean.empty : Clean "" := ⟨.empty, .of_segment List.not_mem_nil⟩

theorem NameContext.qualify_clean {names : NameContext} (package : Clean names.package)
    {segment : String} (solid : Solid segment) (simple : '\\' ∉ segment.toList) :
    Clean (names.qualify segment) := by
  unfold qualify
  split
  · exact ⟨solid, .of_segment simple⟩
  · rename_i nonempty
    refine ⟨(package.solid.append .backslash).append solid, package.rootless.longer nonempty ?_⟩
    rw [joinName, String.toList_append, String.toList_append, List.append_assoc]
    exact List.prefix_append _ _

def NodeKind.Clean : NodeKind → Prop
  | namespace_ name | class_ name .. | interface_ name .. | trait_ name | function_ name _ =>
    PhpAnalyser.Clean name
  | _ => True

namespace NodeKind

/-- A declaration in a namespace, or a node of another kind that opens no namespace. -/
def InSpace (space : String) : NodeKind → Prop
  | class_ name .. | interface_ name .. | trait_ name | function_ name _ => StandsIn space name
  | namespace_ _ => False
  | _ => True

def isNamespace : NodeKind → Bool
  | namespace_ _ => true
  | _ => false

end NodeKind

/-- The nodes from `low` to `high` are below each other, and in one namespace. -/
structure Region (nodes : Array Node) (space : String) (low high : Nat) : Prop where
  high_le : high ≤ nodes.size
  kinds : ∀ i n, low ≤ i → i < high → nodes[i]? = some n → n.kind.InSpace space
  closed : ∀ i n, low ≤ i → i < high → nodes[i]? = some n → ∀ c ∈ n.children, low ≤ c

def namespaceAt (nodes : Array Node) (i : Nat) : Bool :=
  (kindAt nodes i).any NodeKind.isNamespace

/-- Each of the nodes in front of the first namespace among them is in a region of its own. -/
def Arranged (nodes : Array Node) (space : String) (ids : List Nat) : Prop :=
  ∀ i ∈ ids.takeWhile fun i => !namespaceAt nodes i,
    ∃ low high, low ≤ i ∧ i < high ∧ Region nodes space low high

section Develops

variable {nodes nodes' : Array Node} {space : String} {ids more : List Nat}

theorem Develops.size_le (develops : Develops nodes nodes') : nodes.size ≤ nodes'.size := by
  by_contra shrunk
  have here := Array.getElem?_eq_getElem (Nat.lt_of_not_le shrunk)
  obtain ⟨n, there, -⟩ := develops _ _ here
  have low := (Array.getElem?_eq_some_iff.mp there).1
  exact Nat.lt_irrefl _ low

/-- A node that was there is still of its kind and above its children. -/
theorem Develops.before (develops : Develops nodes nodes') {i : Nat} {n : Node}
    (low : i < nodes.size) (found : nodes'[i]? = some n) :
    ∃ old, nodes[i]? = some old ∧ n.kind = old.kind ∧ n.children = old.children := by
  have here := Array.getElem?_eq_getElem low
  obtain ⟨new, there, kind, -, children⟩ := develops i _ here
  obtain rfl := Option.some.inj (there.symm.trans found)
  exact ⟨_, here, kind, children⟩

theorem Region.develops {low high : Nat} (region : Region nodes space low high)
    (develops : Develops nodes nodes') : Region nodes' space low high where
  high_le := Nat.le_trans region.high_le develops.size_le
  kinds i n from_ under found := by
    obtain ⟨old, here, kind, -⟩ :=
      develops.before (Nat.lt_of_lt_of_le under region.high_le) found
    rw [kind]
    exact region.kinds i old from_ under here
  closed i n from_ under found := by
    obtain ⟨old, here, -, children⟩ :=
      develops.before (Nat.lt_of_lt_of_le under region.high_le) found
    rw [children]
    exact region.closed i old from_ under here

theorem Develops.namespace_at (develops : Develops nodes nodes') {i : Nat}
    (low : i < nodes.size) : namespaceAt nodes' i = namespaceAt nodes i := by
  rw [namespaceAt, namespaceAt, develops.kind_at low]

theorem take_while_congr {α : Type} {p q : α → Bool} {xs : List α}
    (same : ∀ x ∈ xs, p x = q x) : xs.takeWhile p = xs.takeWhile q := by
  induction xs with
  | nil => rfl
  | cons x xs ih =>
    rw [List.takeWhile_cons, List.takeWhile_cons, same x List.mem_cons_self,
      ih fun y member => same y (List.mem_cons_of_mem x member)]

theorem Arranged.develops (arranged : Arranged nodes space ids)
    (develops : Develops nodes nodes') (inside : ∀ i ∈ ids, i < nodes.size) :
    Arranged nodes' space ids := by
  intro i member
  have same : ids.takeWhile (fun i => !namespaceAt nodes' i) =
      ids.takeWhile fun i => !namespaceAt nodes i :=
    take_while_congr fun i listed => by rw [develops.namespace_at (inside i listed)]
  rw [same] at member
  obtain ⟨low, high, from_, under, region⟩ := arranged i member
  exact ⟨low, high, from_, under, region.develops develops⟩

theorem Arranged.append (first : Arranged nodes space ids)
    (second : (∀ i ∈ ids, namespaceAt nodes i = false) → Arranged nodes space more) :
    Arranged nodes space (ids ++ more) := by
  by_cases plain : ∀ i ∈ ids, (!namespaceAt nodes i) = true
  · have whole : (ids ++ []).takeWhile (fun i => !namespaceAt nodes i) = ids ++ [] :=
      List.takeWhile_append_of_pos plain
    rw [List.append_nil] at whole
    rw [Arranged, List.takeWhile_append_of_pos plain]
    rw [Arranged, whole] at first
    intro i member
    rcases List.mem_append.mp member with old | new
    · exact first i old
    · exact second (fun j listed => by simpa using plain j listed) i new
  · have stops : (ids.takeWhile fun i => !namespaceAt nodes i).length ≠ ids.length := by
      intro same
      refine plain fun i listed => ?_
      rw [← (List.takeWhile_prefix _).eq_of_length same] at listed
      exact List.all_eq_true.mp List.all_takeWhile i listed
    rw [Arranged, List.takeWhile_append, if_neg stops]
    exact first

end Develops

end PhpAnalyser
