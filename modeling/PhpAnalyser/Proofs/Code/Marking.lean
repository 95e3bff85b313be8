import PhpAnalyser.Proofs.Code.Exposure
import PhpAnalyser.Proofs.Text.SortedMap
/-!
A note on a node changes nothing else of a tree.
-/
namespace PhpAnalyser

def Node.bare (n : Node) : Node := { n with metadata := [] }

namespace SyntaxTree

/-- The same tree, but for the notes on its nodes. -/
structure Marked (t t' : SyntaxTree) : Prop where
  file : t'.file = t.file
  root : t'.root = t.root
  nodes : t'.nodes.map Node.bare = t.nodes.map Node.bare

variable {t t' : SyntaxTree}

namespace Marked

theorem refl (t : SyntaxTree) : t.Marked t := ⟨rfl, rfl, rfl⟩

theorem trans {t'' : SyntaxTree} (first : t.Marked t') (second : t'.Marked t'') : t.Marked t'' :=
  ⟨second.file.trans first.file, second.root.trans first.root, second.nodes.trans first.nodes⟩

theorem size (marked : t.Marked t') : t'.size = t.size := by
  have sizes := congrArg Array.size marked.nodes
  rwa [Array.size_map, Array.size_map] at sizes

theorem node (marked : t.Marked t') (i : Nat) :
    (t'.node? i).map Node.bare = (t.node? i).map Node.bare := by
  have same := congrArg (·[i]?) marked.nodes
  rwa [Array.getElem?_map, Array.getElem?_map] at same

/-- What does not look at the notes is the same of both trees. -/
theorem reads {α : Type} (marked : t.Marked t') (read : Node → α)
    (bare : ∀ n, read n.bare = read n) (none : α) (i : Nat) :
    (t'.node? i).elim none read = (t.node? i).elim none read := by
  have same := congrArg (·.elim none read) (marked.node i)
  simpa only [Option.elim_map, Function.comp_def, bare] using same

theorem kind (marked : t.Marked t') : t'.kind = t.kind :=
  funext fun i => marked.reads Node.kind (fun _ => rfl) .scope i

theorem children (marked : t.Marked t') : t'.children = t.children :=
  funext fun i => marked.reads Node.children (fun _ => rfl) [] i

theorem parent (marked : t.Marked t') : t'.parent = t.parent := by
  have read (t : SyntaxTree) (i : Nat) : t.parent i = (t.node? i).elim none Node.parent := by
    rw [SyntaxTree.parent]
    cases t.node? i <;> rfl
  funext i
  rw [read, read]
  exact marked.reads Node.parent (fun _ => rfl) none i

theorem span (marked : t.Marked t') : t'.spanOf = t.spanOf :=
  funext fun i => marked.reads Node.span (fun _ => rfl) .origin i

theorem body (marked : t.Marked t') : t'.bodyOf = t.bodyOf := by
  funext i
  simp only [bodyOf, marked.children, marked.kind]

theorem descendants (marked : t.Marked t') : t'.descendants = t.descendants := by
  have unstack : ∀ fuel stack, t'.unstack fuel stack = t.unstack fuel stack := by
    intro fuel
    induction fuel with
    | zero => exact fun stack => rfl
    | succ fuel ih =>
      intro stack
      cases stack with
      | nil => rfl
      | cons i stack => simp only [SyntaxTree.unstack, marked.children, ih]
  funext i
  simp only [SyntaxTree.descendants, marked.size, marked.children, unstack]

theorem treelike (marked : t.Marked t') (tree : t.Treelike) : t'.Treelike where
  below := by
    rw [marked.children]
    exact tree.below
  within := by
    rw [marked.children, marked.size]
    exact tree.within
  parent := by
    rw [marked.children]
    exact tree.parent
  once := by
    rw [marked.children]
    exact tree.once

theorem declarations (marked : t.Marked t') (below : ∀ p, ∀ c ∈ t.children p, c < p) (i : Nat) :
    ∀ space, t'.declarations space i = t.declarations space i := by
  have below' : ∀ p, ∀ c ∈ t'.children p, c < p := by
    rw [marked.children]
    exact below
  induction i using Nat.strongRecOn with
  | _ i ih =>
    intro space
    rw [declarations_eq below, declarations_eq below', marked.kind, marked.children]
    have same := List.flatMap_congr fun c member =>
      ih c (below i c member) ((t.kind i).spaceBelow space)
    rw [same]

end Marked

theorem marked_set (t : SyntaxTree) (i : Nat) (key : String) (value : MetaValue) :
    t.Marked (t.setMetadata i key value) where
  file := rfl
  root := rfl
  nodes := by
    refine Array.ext_getElem? fun k => ?_
    simp only [setMetadata, Array.getElem?_map, Array.getElem?_modify]
    split
    · rw [Option.map_map]
      rfl
    · rfl

theorem metadata_set {i : Nat} (inside : i < t.size) (key : String) (value : MetaValue) :
    (t.setMetadata i key value).metadata i key = some value := by
  have here : t.nodes[i]? = some t.nodes[i] := Array.getElem?_eq_getElem inside
  simp [metadata, node?, setMetadata, Array.getElem?_modify, here, SortedMap.find_put]

theorem metadata_other {i j : Nat} (other : i ≠ j) (key key' : String) (value : MetaValue) :
    (t.setMetadata i key value).metadata j key' = t.metadata j key' := by
  simp [metadata, node?, setMetadata, Array.getElem?_modify, other]

theorem inside_of_declares {i : Nat} (declares : (t.kind i).declares = true) : i < t.size := by
  by_contra outside
  have none : t.nodes[i]? = none := Array.getElem?_eq_none (Nat.not_lt.mp outside)
  simp [kind, node?, none, NodeKind.declares] at declares

end SyntaxTree

end PhpAnalyser
