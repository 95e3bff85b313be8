import Mathlib.Data.List.Perm.Subperm
import PhpAnalyser.Proofs.Scope.Around
/-!
Ways down a tree: what a visit comes past, what is found with a stack, and how the nodes of an array
fall apart into what is at and below the nodes that have no parent.
-/
namespace PhpAnalyser

namespace SyntaxTree

def Enters (t : SyntaxTree) (skipped : NodeKind → Bool) (p c : Nat) : Prop :=
  skipped (t.kind p) = false ∧ c ∈ t.children p

/-- The nodes at and below a node, in the order of a visit that skips nothing. -/
def line (t : SyntaxTree) (i : Nat) : List Nat := t.visit (fun _ => false) i

def tops (t : SyntaxTree) : List Nat := (List.range t.size).filter fun i => t.parent i = none

variable {t : SyntaxTree}

theorem visit_eq (below : ∀ p, ∀ c ∈ t.children p, c < p) (skipped : NodeKind → Bool) (i : Nat) :
    t.visit skipped i =
      if skipped (t.kind i) then [i] else i :: (t.children i).flatMap (t.visit skipped) := by
  have every : ((t.children i).flatMap fun c => if c < i then t.visit skipped c else []) =
      (t.children i).flatMap (t.visit skipped) := by
    refine List.flatMap_congr fun c member => ?_
    simp [below i c member]
  rw [visit, every]

theorem line_eq (below : ∀ p, ∀ c ∈ t.children p, c < p) (i : Nat) :
    t.line i = i :: (t.children i).flatMap t.line := by
  rw [line, visit_eq below]
  rfl

/-- A visit comes past a node by the steps that it takes. -/
theorem mem_visit (below : ∀ p, ∀ c ∈ t.children p, c < p) (skipped : NodeKind → Bool) (i j : Nat) :
    j ∈ t.visit skipped i ↔ Relation.ReflTransGen (t.Enters skipped) i j := by
  induction i using Nat.strongRecOn with
  | _ i ih =>
    rw [visit_eq below, Relation.ReflTransGen.cases_head_iff]
    by_cases closed : skipped (t.kind i) = true
    · simp [closed, Enters, eq_comm]
    · rw [if_neg closed, List.mem_cons, List.mem_flatMap]
      refine or_congr eq_comm (exists_congr fun c => ?_)
      simp only [Enters, closed, true_and]
      exact and_congr_right fun member => ih c (below i c member)

theorem enters_everything {p c : Nat} : t.Enters (fun _ => false) p c ↔ c ∈ t.children p := by
  simp [Enters]

theorem mem_line (below : ∀ p, ∀ c ∈ t.children p, c < p) {i j : Nat} :
    j ∈ t.line i ↔ Relation.ReflTransGen (fun p c => c ∈ t.children p) i j := by
  have same : t.Enters (fun _ => false) = fun p c => c ∈ t.children p :=
    funext fun p => funext fun c => propext enters_everything
  rw [line, mem_visit below, same]

/-- Lines from different nodes meet only where one of them is on the other. -/
theorem line_meets (tree : t.Treelike) {c d j : Nat} (first : j ∈ t.line c)
    (second : j ∈ t.line d) : d ∈ t.line c ∨ c ∈ t.line d := by
  rw [mem_line tree.below] at *
  rw [mem_line tree.below]
  exact above_total tree first second

theorem line_nodup (tree : t.Treelike) (i : Nat) : (t.line i).Nodup := by
  induction i using Nat.strongRecOn with
  | _ i ih =>
    rw [line_eq tree.below, List.nodup_cons, List.nodup_flatMap]
    refine ⟨fun inside => ?_, fun c member => ih c (tree.below i c member), ?_⟩
    · obtain ⟨c, member, below⟩ := List.mem_flatMap.mp inside
      have low := tree.below i c member
      have high := le_of_above tree.below ((mem_line tree.below).mp below)
      omega
    · refine (tree.once i).imp_of_mem fun {c d} first second apart => ?_
      intro j inFirst inSecond
      refine apart ?_
      rcases line_meets tree inFirst inSecond with down | down
      · exact siblings_apart tree first second ((mem_line tree.below).mp down)
      · exact (siblings_apart tree second first ((mem_line tree.below).mp down)).symm

theorem lt_size_of_mem_line (tree : t.Treelike) {i j : Nat} (inside : i < t.size)
    (member : j ∈ t.line i) : j < t.size :=
  Nat.lt_of_le_of_lt (le_of_above tree.below ((mem_line tree.below).mp member)) inside

/-- With enough steps, all lines of a stack are taken one after another. -/
theorem unstack_eq (below : ∀ p, ∀ c ∈ t.children p, c < p) (fuel : Nat) (stack : List Nat) :
    t.unstack fuel stack = (stack.flatMap t.line).take fuel := by
  induction fuel generalizing stack with
  | zero => rfl
  | succ fuel ih =>
    cases stack with
    | nil => rfl
    | cons i stack =>
      rw [unstack, ih, List.flatMap_cons, line_eq below i, List.flatMap_append, List.cons_append,
        List.take_succ_cons]

/-- No line is longer than the array. -/
theorem length_line_le (tree : t.Treelike) {i : Nat} (inside : i < t.size) :
    (t.line i).length ≤ t.size := by
  have subset : t.line i ⊆ List.range t.size := fun j member =>
    List.mem_range.mpr (lt_size_of_mem_line tree inside member)
  simpa using (List.subperm_of_subset (line_nodup tree i) subset).length_le

theorem length_below_le (tree : t.Treelike) (i : Nat) :
    ((t.children i).flatMap t.line).length ≤ t.size := by
  by_cases inside : i < t.size
  · have length := length_line_le tree inside
    rw [line_eq tree.below, List.length_cons] at length
    omega
  · have none : t.children i = [] := by
      rw [children, node?, Array.getElem?_eq_none (by simpa [size] using inside)]
      rfl
    simp [none]

/-- The stack runs empty within as many steps as there are nodes. -/
theorem unstack_children (tree : t.Treelike) (i : Nat) {fuel : Nat} (enough : t.size ≤ fuel) :
    t.unstack fuel (t.children i) = (t.children i).flatMap t.line := by
  have length := length_below_le tree i
  rw [unstack_eq tree.below, List.take_of_length_le (by omega)]

theorem descendants_eq (tree : t.Treelike) (i : Nat) :
    t.descendants i = (t.children i).flatMap t.line :=
  unstack_children tree i (Nat.le_refl _)

theorem line_descendants (tree : t.Treelike) (i : Nat) : t.line i = i :: t.descendants i := by
  rw [line_eq tree.below, descendants_eq tree]

/-- Each child comes in front of what is below it. -/
theorem descendants_children (tree : t.Treelike) (i : Nat) :
    t.descendants i = (t.children i).flatMap fun c => c :: t.descendants c := by
  rw [descendants_eq tree]
  exact List.flatMap_congr fun c _ => line_descendants tree c

theorem accept_eq {σ : Type} (below : ∀ p, ∀ c ∈ t.children p, c < p) (v : Visitor σ) (i : Nat) :
    t.accept v i =
      v.call (t.kind i).visitMethod i fun s => (t.children i).foldl (fun s c => t.accept v c s) s := by
  have every (s : σ) :
      ((t.children i).foldl (fun s c => if c < i then t.accept v c s else s) s) =
        (t.children i).foldl (fun s c => t.accept v c s) s := by
    refine List.foldl_ext _ _ s fun s c member => ?_
    rw [if_pos (below i c member)]
  rw [accept]
  exact congrArg _ (funext every)

end SyntaxTree

namespace Visitor

variable {σ : Type}

def walking (work : VisitMethod → Option (Nat → σ → σ)) : Visitor σ where
  own m := (work m).map fun act i walk s => walk (act i s)

def workAt (work : VisitMethod → Option (Nat → σ → σ)) (m : VisitMethod) : Nat → σ → σ :=
  ((work m).or (work .node)).getD fun _ s => s

theorem call_walking (work : VisitMethod → Option (Nat → σ → σ)) (m : VisitMethod) (i : Nat)
    (walk : σ → σ) (s : σ) : (walking work).call m i walk s = walk (workAt work m i s) := by
  cases own : work m with
  | some act => simp [call, walking, workAt, own]
  | none => cases other : work .node <;> simp [call, walking, workAt, own, other]

/-- Notes each node with the method that it is handed to. -/
def dispatches : Visitor (List (VisitMethod × Nat)) :=
  walking fun m => some fun i seen => seen ++ [(m, i)]

/-- Notes the nodes that it is handed, and leaves out what is below the `skipped` kinds. -/
def noting (t : SyntaxTree) (skipped : NodeKind → Bool) : Visitor (List Nat) where
  own _ := some fun i walk seen =>
    if skipped (t.kind i) then seen ++ [i] else walk (seen ++ [i])

end Visitor

namespace SyntaxTree

variable {t : SyntaxTree}

/-- A visitor that always goes on does its work along the line of the node it starts from. -/
theorem accept_walking {σ : Type} (below : ∀ p, ∀ c ∈ t.children p, c < p)
    (work : VisitMethod → Option (Nat → σ → σ)) (i : Nat) (s : σ) :
    t.accept (.walking work) i s =
      (t.line i).foldl (fun s j => Visitor.workAt work (t.kind j).visitMethod j s) s := by
  induction i using Nat.strongRecOn generalizing s with
  | _ i ih =>
    rw [accept_eq below, Visitor.call_walking, line_eq below, List.foldl_cons, List.foldl_flatMap]
    exact List.foldl_ext _ _ _ fun s c member => ih c (below i c member) s

theorem foldl_appends {α β : Type} {step : List β → α → List β} {added : α → List β}
    (items : List α) (seen : List β)
    (each : ∀ x ∈ items, ∀ seen, step seen x = seen ++ added x) :
    items.foldl step seen = seen ++ items.flatMap added := by
  induction items generalizing seen with
  | nil => simp
  | cons x items ih =>
    rw [List.foldl_cons, each x List.mem_cons_self,
      ih _ fun y member => each y (List.mem_cons_of_mem x member), List.flatMap_cons,
      List.append_assoc]

theorem accept_dispatches (below : ∀ p, ∀ c ∈ t.children p, c < p) (i : Nat) :
    t.accept .dispatches i [] = (t.line i).map fun j => ((t.kind j).visitMethod, j) := by
  rw [Visitor.dispatches, accept_walking below, List.map_eq_flatMap]
  exact foldl_appends _ [] fun j _ seen => rfl

/-- A visit is what a visitor is handed that stops at the skipped kinds. -/
theorem accept_noting (below : ∀ p, ∀ c ∈ t.children p, c < p) (skipped : NodeKind → Bool) (i : Nat)
    (seen : List Nat) : t.accept (.noting t skipped) i seen = seen ++ t.visit skipped i := by
  induction i using Nat.strongRecOn generalizing seen with
  | _ i ih =>
    have own (m : VisitMethod) (walk : List Nat → List Nat) :
        (Visitor.noting t skipped).call m i walk seen =
          if skipped (t.kind i) then seen ++ [i] else walk (seen ++ [i]) := rfl
    rw [accept_eq below, visit_eq below, own]
    split
    · rfl
    · rw [foldl_appends _ _ fun c member => ih c (below i c member), List.append_assoc]
      rfl

structure Grown (t : SyntaxTree) : Prop where
  tree : t.Treelike
  rooted : t.Rooted
  listed : ∀ c p, t.parent c = some p → c ∈ t.children p

theorem grown_of_shaped {tokens : Array Token} (shaped : Shaped tokens t.nodes) : t.Grown where
  tree := treelike_of_shaped shaped
  rooted := rooted_of_shaped shaped
  listed c p above := by
    obtain ⟨m, found, above⟩ := Option.bind_eq_some_iff.mp above
    obtain ⟨n, there, listed⟩ := (shaped.linked c p m found).mp above
    rw [children, node?, there]
    exact listed

theorem grown_of_accepted {source : String} {file : Nat} (accepted : parse source file = .ok t) :
    t.Grown := by
  obtain ⟨s, nodes, complete, -⟩ := complete_of_accepted accepted
  have shaped := complete.shaped
  rw [← nodes] at shaped
  exact grown_of_shaped shaped

namespace Grown

variable (grown : t.Grown)
include grown

theorem parent_iff {p c : Nat} : t.parent c = some p ↔ c ∈ t.children p :=
  ⟨grown.listed c p, grown.rooted.parent p c⟩

theorem mem_ancestors {a i : Nat} :
    a ∈ t.ancestors i ↔ Relation.TransGen (fun p c => c ∈ t.children p) a i := by
  induction above : t.ancestors i generalizing i with
  | nil =>
    constructor
    · exact nofun
    · intro path
      obtain ⟨p, -, child⟩ := Relation.TransGen.tail'_iff.mp path
      rw [grown.rooted.ancestors_child child] at above
      cases above
  | cons p rest ih =>
    obtain ⟨q, parent⟩ : ∃ q, t.parent i = some q := by
      by_contra none
      have top := Option.eq_none_iff_forall_ne_some.mpr fun q same => none ⟨q, same⟩
      rw [ancestors_top top] at above
      cases above
    have child := grown.parent_iff.mp parent
    rw [grown.rooted.ancestors_child child] at above
    obtain ⟨rfl, rest⟩ := List.cons.inj above
    rw [List.mem_cons, Relation.TransGen.tail'_iff, ih rest]
    constructor
    · rintro (rfl | path)
      · exact ⟨a, .refl, child⟩
      · exact ⟨q, path.to_reflTransGen, child⟩
    · rintro ⟨p, path, child'⟩
      obtain rfl := grown.tree.parent p q i child' child
      exact Relation.reflTransGen_iff_eq_or_transGen.mp path |>.imp_left Eq.symm

theorem lt_of_mem_ancestors {a i : Nat} (above : a ∈ t.ancestors i) : i < a := by
  obtain ⟨c, child, path⟩ := Relation.TransGen.head'_iff.mp (grown.mem_ancestors.mp above)
  have low := grown.tree.below a c child
  have high := le_of_above grown.tree.below path
  omega

/-- The descendants of a node are the nodes that have it for an ancestor. -/
theorem mem_descendants {i a : Nat} : i ∈ t.descendants a ↔ a ∈ t.ancestors i := by
  rw [grown.mem_ancestors, Relation.TransGen.head'_iff, descendants_eq grown.tree, List.mem_flatMap]
  exact exists_congr fun c => and_congr_right fun _ => mem_line grown.tree.below

omit grown in
theorem mem_tops {i : Nat} : i ∈ t.tops ↔ i < t.size ∧ t.parent i = none := by
  simp [tops]

/-- Going up from a node ends at one without a parent. -/
theorem below_top {i : Nat} (inside : i < t.size) : ∃ top ∈ t.tops, i ∈ t.line top := by
  induction space : t.size - i using Nat.strongRecOn generalizing i with
  | _ space ih =>
    cases parent : t.parent i with
    | none => exact ⟨i, mem_tops.mpr ⟨inside, parent⟩, (mem_line grown.tree.below).mpr .refl⟩
    | some p =>
      obtain ⟨lt, within⟩ := grown.rooted.above i p parent
      obtain ⟨top, isTop, under⟩ := ih (t.size - p) (by omega) within rfl
      rw [mem_line grown.tree.below] at under
      refine ⟨top, isTop, (mem_line grown.tree.below).mpr ?_⟩
      exact under.tail (grown.parent_iff.mp parent)

theorem eq_of_mem_line {top i : Nat} (isTop : t.parent i = none) (under : i ∈ t.line top) :
    i = top := by
  rcases ((mem_line grown.tree.below).mp under).cases_tail with same | ⟨p, -, child⟩
  · exact same
  · rw [grown.parent_iff.mpr child] at isTop
    cases isTop

/-- Every node is at or below exactly one node without a parent, and is found there once. -/
theorem lines_perm : (t.tops.flatMap t.line).Perm (List.range t.size) := by
  refine (List.perm_ext_iff_of_nodup ?_ List.nodup_range).mpr fun i => ?_
  · rw [List.nodup_flatMap]
    refine ⟨fun top _ => line_nodup grown.tree top, ?_⟩
    have apart : t.tops.Nodup := List.nodup_range.filter _
    refine apart.imp_of_mem fun {c d} first second apart => ?_
    intro j inFirst inSecond
    rcases line_meets grown.tree inFirst inSecond with under | under
    · exact apart (grown.eq_of_mem_line (mem_tops.mp second).2 under).symm
    · exact apart (grown.eq_of_mem_line (mem_tops.mp first).2 under)
  · rw [List.mem_range, List.mem_flatMap]
    constructor
    · rintro ⟨top, isTop, under⟩
      exact lt_size_of_mem_line grown.tree (mem_tops.mp isTop).1 under
    · exact grown.below_top

/-- A node is a child or has no parent. -/
theorem children_perm :
    ((List.range t.size).flatMap t.children ++ t.tops).Perm (List.range t.size) := by
  refine (List.perm_ext_iff_of_nodup ?_ List.nodup_range).mpr fun i => ?_
  · refine List.Nodup.append ?_ (List.nodup_range.filter _) ?_
    · rw [List.nodup_flatMap]
      refine ⟨fun p _ => grown.tree.once p, List.nodup_range.imp fun {p q} apart => ?_⟩
      exact fun c first second => apart (grown.tree.parent p q c first second)
    · intro c inside isTop
      obtain ⟨p, -, child⟩ := List.mem_flatMap.mp inside
      have none := (mem_tops.mp isTop).2
      rw [grown.parent_iff.mpr child] at none
      cases none
  · rw [List.mem_append, List.mem_flatMap, List.mem_range, mem_tops]
    constructor
    · rintro (⟨p, -, child⟩ | ⟨inside, -⟩)
      · exact grown.tree.within p i child
      · exact inside
    · intro inside
      cases parent : t.parent i with
      | none => exact .inr ⟨inside, rfl⟩
      | some p =>
        have inside := (grown.rooted.above i p parent).2
        exact .inl ⟨p, List.mem_range.mpr inside, grown.parent_iff.mp parent⟩

end Grown

/-- The ways through a tree agree. What is found with a stack, which runs empty, is the recursive
order of the nodes below, each in front of what is below it and once; a visitor that always goes on
is handed the node and these in that order, one method for each, and one that stops at some kinds is
handed what a visit lists; and they are the nodes from which the way up, which ends, comes past the
node. -/
theorem traversals_agree {source : String} {file : Nat} (accepted : parse source file = .ok t)
    (n : Nat) :
    (∀ fuel, t.size ≤ fuel → t.unstack fuel (t.children n) = t.descendants n) ∧
      t.descendants n = ((t.children n).flatMap fun c => c :: t.descendants c) ∧
      (n :: t.descendants n).Nodup ∧
      (∀ (σ : Type) (work : VisitMethod → Option (Nat → σ → σ)) (s : σ),
        t.accept (.walking work) n s = (n :: t.descendants n).foldl
          (fun s i => Visitor.workAt work (t.kind i).visitMethod i s) s) ∧
      t.accept .dispatches n [] =
        ((n :: t.descendants n).map fun i => ((t.kind i).visitMethod, i)) ∧
      (∀ skipped, t.accept (.noting t skipped) n [] = t.visit skipped n) ∧
      (∀ d, d ∈ t.descendants n ↔ n ∈ t.ancestors d) ∧
      ∀ fuel, t.size ≤ fuel → t.ancestorsWithin fuel n = t.ancestors n := by
  have grown := grown_of_accepted accepted
  have tree := grown.tree
  rw [← line_descendants tree]
  refine ⟨fun fuel enough => ?_, descendants_children tree n, line_nodup tree n, ?_,
    accept_dispatches tree.below n, fun skipped => accept_noting tree.below skipped n [],
    fun d => grown.mem_descendants, fun fuel enough => ?_⟩
  · rw [unstack_children tree n enough, descendants_eq tree]
  · intro σ work s
    exact accept_walking tree.below work n s
  · exact grown.rooted.ancestors_within fuel t.size (by omega) (by omega)

def nestedBodies : String :=
  "<?php class A { function m() { return function () { $x = 1; }; } } $y;"

theorem traversals_agree_nested_bodies : ∃ t, parse nestedBodies 0 = .ok t ∧
    t.root :: t.descendants t.root = [14, 11, 10, 0, 9, 8, 7, 1, 6, 5, 4, 2, 3, 13, 12] ∧
    t.accept .dispatches t.root [] =
      ((t.root :: t.descendants t.root).map fun i => ((t.kind i).visitMethod, i)) ∧
    ∀ d, d ∈ t.descendants t.root ↔ t.root ∈ t.ancestors d := by
  have shows : (parse nestedBodies 0).toOption.any (fun t =>
      t.root :: t.descendants t.root = [14, 11, 10, 0, 9, 8, 7, 1, 6, 5, 4, 2, 3, 13, 12]) =
        true := by decide +kernel
  obtain ⟨t, accepted, shown⟩ := ok_of_any shows
  obtain ⟨-, -, -, -, dispatches, -, below, -⟩ := traversals_agree accepted t.root
  exact ⟨t, accepted, of_decide_eq_true shown, dispatches, below⟩

end SyntaxTree

end PhpAnalyser
