import Mathlib.Data.List.Nodup
import Mathlib.Logic.Relation
import PhpAnalyser.Code.Registration
import PhpAnalyser.Proofs.Syntax.Shape
/-!
The declarations that a file shows to the outside: those that no function, method, closure or type
stands around.
-/
namespace PhpAnalyser

def NodeKind.isBody : NodeKind → Bool
  | .class_ .. | .interface_ .. | .trait_ .. | .function_ .. | .method .. | .closure .. => true
  | _ => false

def NodeKind.declares : NodeKind → Bool
  | .class_ .. | .interface_ .. | .trait_ .. | .function_ .. => true
  | _ => false

def NodeKind.spaceBelow (space : String) : NodeKind → String
  | .namespace_ name => name
  | _ => space

namespace SyntaxTree

structure Opens (t : SyntaxTree) (above below : String × Nat) : Prop where
  opened : (t.kind above.2).isBody = false
  child : below.2 ∈ t.children above.2
  space : below.1 = (t.kind above.2).spaceBelow above.1

/-- A node is below the root, in a namespace, with no body around it. -/
def Exposed (t : SyntaxTree) (space : String) (i : Nat) : Prop :=
  Relation.ReflTransGen t.Opens ("", t.root) (space, i)

/-- Children come before their parents, and each has one parent, which has it once. -/
structure Treelike (t : SyntaxTree) : Prop where
  below : ∀ p, ∀ c ∈ t.children p, c < p
  within : ∀ p, ∀ c ∈ t.children p, c < t.size
  parent : ∀ p q c, c ∈ t.children p → c ∈ t.children q → p = q
  once : ∀ p, (t.children p).Nodup

variable {t : SyntaxTree}

theorem children_of_mem {p c : Nat} (member : c ∈ t.children p) :
    ∃ n, t.nodes[p]? = some n ∧ c ∈ n.children := by
  cases found : t.nodes[p]? with
  | none => simp [children, node?, found] at member
  | some n =>
    refine ⟨n, rfl, ?_⟩
    simpa [children, node?, found] using member

theorem treelike_of_shaped {tokens : Array Token} (shaped : Shaped tokens t.nodes) :
    t.Treelike where
  below p c member := by
    obtain ⟨n, found, listed⟩ := children_of_mem member
    exact shaped.below p n found c listed
  within p c member := by
    obtain ⟨n, found, listed⟩ := children_of_mem member
    obtain ⟨inside, -⟩ := Array.getElem?_eq_some_iff.mp found
    exact Nat.lt_trans (shaped.below p n found c listed) inside
  parent p q c first second := by
    obtain ⟨n, found, listed⟩ := children_of_mem first
    obtain ⟨n', found', listed'⟩ := children_of_mem second
    have inside : c < t.nodes.size :=
      Nat.lt_trans (shaped.below p n found c listed) (Array.getElem?_eq_some_iff.mp found).1
    have here : t.nodes[c]? = some t.nodes[c] := Array.getElem?_eq_getElem inside
    have above := (shaped.linked c p _ here).mpr ⟨n, found, listed⟩
    have above' := (shaped.linked c q _ here).mpr ⟨n', found', listed'⟩
    exact Option.some.inj (above.symm.trans above')
  once p := by
    cases found : t.nodes[p]? with
    | none => simp [children, node?, found]
    | some n => simpa [children, node?, found] using shaped.once p n found

/-- The search by its three cases: a declaration, a body of another kind, any other node. -/
theorem declarations_eq (below : ∀ p, ∀ c ∈ t.children p, c < p) (space : String) (i : Nat) :
    t.declarations space i =
      if (t.kind i).declares then [(space, i)]
      else if (t.kind i).isBody then []
      else (t.children i).flatMap (t.declarations ((t.kind i).spaceBelow space)) := by
  have every (inner : String) :
      ((t.children i).flatMap fun c => if c < i then t.declarations inner c else []) =
        (t.children i).flatMap (t.declarations inner) := by
    refine List.flatMap_congr fun c member => ?_
    simp [below i c member]
  rw [declarations]
  simp only [every]
  cases kind : t.kind i <;> simp [NodeKind.declares, NodeKind.isBody, NodeKind.spaceBelow]

theorem body_of_declares {kind : NodeKind} (declares : kind.declares = true) :
    kind.isBody = true := by
  cases kind <;> simp_all [NodeKind.declares, NodeKind.isBody]

/-- A path that leaves a node goes through one of its children. -/
theorem opens_head {above below : String × Nat}
    (path : Relation.ReflTransGen t.Opens above below) :
    above = below ∨ (t.kind above.2).isBody = false ∧ ∃ c ∈ t.children above.2,
      Relation.ReflTransGen t.Opens ((t.kind above.2).spaceBelow above.1, c) below := by
  rcases path.cases_head with same | ⟨next, step, rest⟩
  · exact .inl same
  · obtain ⟨space, c⟩ := next
    obtain rfl : space = _ := step.space
    exact .inr ⟨step.opened, c, step.child, rest⟩

/-- The search finds the declarations that paths lead to. -/
theorem mem_declarations (below : ∀ p, ∀ c ∈ t.children p, c < p) (entry : String × Nat)
    (i : Nat) : ∀ space, entry ∈ t.declarations space i ↔
      Relation.ReflTransGen t.Opens (space, i) entry ∧ (t.kind entry.2).declares = true := by
  induction i using Nat.strongRecOn with
  | _ i ih =>
    intro space
    rw [declarations_eq below]
    by_cases declares : (t.kind i).declares = true
    · have closed := body_of_declares declares
      rw [if_pos declares, List.mem_singleton]
      constructor
      · rintro rfl
        exact ⟨.refl, declares⟩
      · rintro ⟨path, -⟩
        rcases opens_head path with same | ⟨opened, -⟩
        · exact same.symm
        · simp [closed] at opened
    by_cases closed : (t.kind i).isBody = true
    · rw [if_neg declares, if_pos closed]
      simp only [List.not_mem_nil, false_iff, not_and]
      intro path declared
      rcases opens_head path with rfl | ⟨opened, -⟩
      · exact declares declared
      · simp [closed] at opened
    · rw [if_neg declares, if_neg closed, List.mem_flatMap]
      constructor
      · rintro ⟨c, member, found⟩
        obtain ⟨path, declared⟩ := (ih c (below i c member) _).mp found
        exact ⟨path.head ⟨by simpa using closed, member, rfl⟩, declared⟩
      · rintro ⟨path, declared⟩
        rcases opens_head path with rfl | ⟨-, c, member, rest⟩
        · exact absurd declared declares
        · exact ⟨c, member, (ih c (below i c member) _).mpr ⟨rest, declared⟩⟩

/-- From the root, the search finds the exposed declarations. -/
theorem mem_declarations_root (below : ∀ p, ∀ c ∈ t.children p, c < p) {space : String}
    {i : Nat} : (space, i) ∈ t.declarations "" t.root ↔
      t.Exposed space i ∧ (t.kind i).declares = true :=
  mem_declarations below (space, i) t.root ""

/-- Going up from a node leads along one line. -/
theorem above_total (tree : t.Treelike) {c d i : Nat}
    (first : Relation.ReflTransGen (fun p c => c ∈ t.children p) c i)
    (second : Relation.ReflTransGen (fun p c => c ∈ t.children p) d i) :
    Relation.ReflTransGen (fun p c => c ∈ t.children p) c d ∨
      Relation.ReflTransGen (fun p c => c ∈ t.children p) d c := by
  have upward : Relator.RightUnique (Function.swap fun p c => c ∈ t.children p) :=
    fun _ p q child child' => tree.parent p q _ child child'
  have total := Relation.ReflTransGen.total_of_right_unique upward
    (Relation.reflTransGen_swap.mpr first) (Relation.reflTransGen_swap.mpr second)
  exact total.symm.imp Relation.reflTransGen_swap.mp Relation.reflTransGen_swap.mp

theorem le_of_above (below : ∀ p, ∀ c ∈ t.children p, c < p) {p i : Nat}
    (path : Relation.ReflTransGen (fun p c => c ∈ t.children p) p i) : i ≤ p := by
  induction path with
  | refl => exact Nat.le_refl _
  | tail _ child ih => exact Nat.le_trans (Nat.le_of_lt (below _ _ child)) ih

/-- A child is not below another child of its parent. -/
theorem siblings_apart (tree : t.Treelike) {p c d : Nat} (first : c ∈ t.children p)
    (second : d ∈ t.children p)
    (path : Relation.ReflTransGen (fun p c => c ∈ t.children p) c d) : c = d := by
  rcases path.cases_tail with same | ⟨q, between, child⟩
  · exact same.symm
  · obtain rfl : p = q := tree.parent p q d second child
    have high := le_of_above tree.below between
    have low := tree.below p c first
    omega

theorem path_of_opens {above below : String × Nat}
    (path : Relation.ReflTransGen t.Opens above below) :
    Relation.ReflTransGen (fun p c => c ∈ t.children p) above.2 below.2 :=
  path.lift Prod.snd fun _ _ step => step.child

theorem declarations_nodup (tree : t.Treelike) (i : Nat) :
    ∀ space, ((t.declarations space i).map (·.2)).Nodup := by
  induction i using Nat.strongRecOn with
  | _ i ih =>
    intro space
    rw [declarations_eq tree.below]
    split
    · simp
    split
    · simp
    rw [List.map_flatMap, List.nodup_flatMap]
    refine ⟨fun c member => ih c (tree.below i c member) _, ?_⟩
    refine (tree.once i).imp_of_mem fun {c d} first second apart => ?_
    intro j inFirst inSecond
    obtain ⟨entry, found, rfl⟩ := List.mem_map.mp inFirst
    obtain ⟨entry', found', same⟩ := List.mem_map.mp inSecond
    have path := path_of_opens ((mem_declarations tree.below _ c _).mp found).1
    have path' := path_of_opens ((mem_declarations tree.below _ d _).mp found').1
    rw [same] at path'
    refine apart ?_
    rcases above_total tree path path' with down | down
    · exact siblings_apart tree first second down
    · exact (siblings_apart tree second first down).symm

/-- A declaration stands in one namespace. -/
theorem exposed_space (tree : t.Treelike) {space space' : String} {i : Nat}
    (first : (space, i) ∈ t.declarations "" t.root)
    (second : (space', i) ∈ t.declarations "" t.root) : space = space' := by
  have nodup := declarations_nodup tree t.root ""
  exact congrArg Prod.fst (List.inj_on_of_nodup_map nodup first second rfl)

end SyntaxTree

end PhpAnalyser
