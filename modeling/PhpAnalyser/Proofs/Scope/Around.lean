import Mathlib.Data.List.Chain
import PhpAnalyser.Proofs.Code.Exposure
import PhpAnalyser.Proofs.Grammar.Outcome
import PhpAnalyser.Proofs.Grammar.Success
import PhpAnalyser.Proofs.Scope.Unit
/-!
The declaration around a node of a finished tree is the one that its keywords were read in.
-/
namespace PhpAnalyser

/-- A tree is what was made without an error. -/
theorem clean_run_of_accepted {source : String} {file : Nat} {t : SyntaxTree}
    (accepted : parse source file = .ok t) : ∃ s,
      Parser.compilationUnit (.initial (.ofSource source)) = some (.ok t.root, s) ∧
        t.nodes = s.nodes ∧ s.errors = [] := by
  unfold parse parseTokens parseTokens? at accepted
  cases run : Parser.compilationUnit (.initial (.ofSource source)) with
  | none =>
    rw [run] at accepted
    cases accepted
  | some outcome =>
    obtain ⟨result, s⟩ := outcome
    rw [run] at accepted
    cases result with
    | error fatal => cases accepted
    | ok root =>
      dsimp only [Option.getD_some] at accepted
      split at accepted
      next none =>
        cases accepted
        exact ⟨s, rfl, rfl, List.isEmpty_iff.mp none⟩
      next => cases accepted

theorem run_of_accepted {source : String} {file : Nat} {t : SyntaxTree}
    (accepted : parse source file = .ok t) : ∃ s,
      Parser.compilationUnit (.initial (.ofSource source)) = some (.ok t.root, s) ∧
        t.nodes = s.nodes := by
  obtain ⟨s, run, nodes, -⟩ := clean_run_of_accepted accepted
  exact ⟨s, run, nodes⟩

/-- The root is made last. -/
theorem root_of_accepted {source : String} {file : Nat} {t : SyntaxTree}
    (accepted : parse source file = .ok t) : t.size = t.root + 1 := by
  obtain ⟨s, run, nodes⟩ := run_of_accepted accepted
  obtain ⟨ids, s₁, -, run⟩ := ok_of_bind run
  obtain ⟨span, s₂, -, run⟩ := ok_of_bind run
  rw [Heeds.push_run] at run
  split at run
  · simp only [Option.some.injEq, Prod.mk.injEq, Except.ok.injEq] at run
    obtain ⟨root, rfl⟩ := run
    rw [SyntaxTree.size, nodes, size_adopt, root]
  · cases run

/-- There is no type around the whole tree of a text. -/
theorem in_scope_of_accepted {source : String} {file : Nat} {t : SyntaxTree}
    (accepted : parse source file = .ok t) : InScope t.nodes none t.root := by
  obtain ⟨s, run, nodes⟩ := run_of_accepted accepted
  rw [nodes]
  exact (Heeds.compilationUnit _ rfl _ s run).2.2 _ rfl (.refl _)

namespace SyntaxTree

variable {t : SyntaxTree}

theorem kind_of_found {i : Nat} {n : Node} (found : t.nodes[i]? = some n) : t.kind i = n.kind := by
  rw [kind, node?, found]
  rfl

/-- A parent is named by its children and comes behind them. -/
structure Rooted (t : SyntaxTree) : Prop where
  parent : ∀ p, ∀ c ∈ t.children p, t.parent c = some p
  above : ∀ c p, t.parent c = some p → c < p ∧ p < t.size

theorem rooted_of_shaped {tokens : Array Token} (shaped : Shaped tokens t.nodes) : t.Rooted where
  parent p c member := by
    have inside : c < t.nodes.size := (treelike_of_shaped shaped).within p c member
    have found := Array.getElem?_eq_getElem inside
    obtain ⟨n, there, listed⟩ := children_of_mem member
    rw [parent, node?, found]
    exact (shaped.linked c p _ found).mpr ⟨n, there, listed⟩
  above c p above := by
    obtain ⟨m, found, above⟩ := Option.bind_eq_some_iff.mp above
    obtain ⟨n, there, listed⟩ := (shaped.linked c p m found).mp above
    exact ⟨shaped.below p n there c listed, (Array.getElem?_eq_some_iff.mp there).1⟩

namespace Rooted

variable (rooted : t.Rooted)
include rooted

/-- There are fewer nodes above a node than behind it. -/
theorem ancestors_within (fuel fuel' : Nat) {i : Nat} (enough : t.size ≤ fuel + i)
    (enough' : t.size ≤ fuel' + i) : t.ancestorsWithin fuel i = t.ancestorsWithin fuel' i := by
  have top {i : Nat} (last : t.size ≤ i) : t.parent i = none := by
    by_contra some
    obtain ⟨p, above⟩ := Option.ne_none_iff_exists'.mp some
    have behind := rooted.above i p above
    omega
  induction fuel generalizing fuel' i with
  | zero =>
    cases fuel' with
    | zero => rfl
    | succ fuel' =>
      rw [ancestorsWithin, ancestorsWithin, top (by omega)]
  | succ fuel ih =>
    cases fuel' with
    | zero =>
      rw [ancestorsWithin, ancestorsWithin, top (by omega)]
    | succ fuel' =>
      rw [ancestorsWithin, ancestorsWithin]
      cases above : t.parent i with
      | none => rfl
      | some p =>
        have behind := rooted.above i p above
        exact congrArg (p :: ·) (ih fuel' (by omega) (by omega))

theorem ancestors_child {p c : Nat} (child : c ∈ t.children p) :
    t.ancestors c = p :: t.ancestors p := by
  have above := rooted.parent p c child
  have behind := rooted.above c p above
  rw [ancestors, rooted.ancestors_within t.size (t.size + 1) (by omega) (by omega),
    ancestorsWithin, above]
  rfl

end Rooted

theorem ancestors_top {i : Nat} (top : t.parent i = none) : t.ancestors i = [] := by
  rw [ancestors]
  cases t.size with
  | zero => rfl
  | succ n => rw [ancestorsWithin, top]

theorem Rooted.ancestors_root (rooted : t.Rooted) (last : t.size = t.root + 1) :
    t.ancestors t.root = [] := by
  refine ancestors_top ?_
  by_contra some
  obtain ⟨p, above⟩ := Option.ne_none_iff_exists'.mp some
  have behind := rooted.above t.root p above
  omega

/-- The type around a node: none without a declaration around it, or in a function. -/
def scopeAround (t : SyntaxTree) (i : Nat) : Option TypeScope :=
  (t.findAncestor i NodeKind.declares).bind fun a => (t.kind a).scopeBelow none

theorem scope_of_declares {kind : NodeKind} (declares : kind.declares = true)
    (scope : Option TypeScope) : kind.scopeBelow scope = kind.scopeBelow none := by
  cases kind <;> first | rfl | cases declares

theorem scope_of_other {kind : NodeKind} (other : kind.declares = false)
    (scope : Option TypeScope) : kind.scopeBelow scope = scope := by
  cases kind <;> first | rfl | cases other

theorem Rooted.scope_child (rooted : t.Rooted) {p c : Nat} (child : c ∈ t.children p) :
    t.scopeAround c = (t.kind p).scopeBelow (t.scopeAround p) := by
  rw [scopeAround, findAncestor, rooted.ancestors_child child, List.find?_cons]
  cases declares : (t.kind p).declares with
  | true => exact (scope_of_declares declares _).symm
  | false => exact (scope_of_other declares _).symm

/-- Down from the root, every node has the type around it for its scope. -/
theorem Rooted.in_scope (rooted : t.Rooted) (last : t.size = t.root + 1)
    (whole : InScope t.nodes none t.root) {i : Nat}
    (reachable : Relation.ReflTransGen (fun p c => c ∈ t.children p) t.root i) :
    InScope t.nodes (t.scopeAround i) i := by
  induction reachable with
  | refl =>
    rw [scopeAround, findAncestor, rooted.ancestors_root last]
    exact whole
  | @tail p c _ child ih =>
    rw [rooted.scope_child child]
    cases ih with
    | node found bound below =>
      rw [kind_of_found found]
      obtain ⟨n, there, listed⟩ := children_of_mem child
      cases found.symm.trans there
      exact below c listed

end SyntaxTree

def Registration.TypeHead.lateTarget (head : Registration.TypeHead) : LateKeyword → Option String
  | .parent_ => if head.kind = .class_ then head.parent else none
  | _ => some head.name

/-- A keyword has a target in a type alone, and `parent` in a class only if it has a parent. -/
theorem head_of_target {kind : NodeKind} (declares : kind.declares = true) {keyword : LateKeyword}
    {target : Option String}
    (known : Parser.lateTarget keyword (kind.scopeBelow none) = .ok target) :
    ∃ head, Registration.head? kind = some head ∧ target = head.lateTarget keyword ∧
      (keyword = .parent_ → head.kind = .class_ → head.parent.isSome) := by
  cases kind with
  | class_ name modifiers parent interfaces =>
    refine ⟨_, rfl, ?_⟩
    cases keyword with
    | parent_ =>
      cases parent with
      | none => cases known
      | some parent =>
        cases known
        exact ⟨rfl, fun _ _ => rfl⟩
    | _ =>
      cases known
      exact ⟨rfl, fun no => nomatch no⟩
  | interface_ name parents =>
    refine ⟨_, rfl, ?_⟩
    cases keyword <;> cases known <;> exact ⟨rfl, fun _ no => nomatch no⟩
  | trait_ name =>
    refine ⟨_, rfl, ?_⟩
    cases keyword <;> cases known <;> exact ⟨rfl, fun _ no => nomatch no⟩
  | function_ name byRef => cases known
  | _ => cases declares

/-- A keyword below the root has the target that it has in the scope of the type around it. -/
theorem target_in_scope {source : String} {file : Nat} {t : SyntaxTree}
    (accepted : parse source file = .ok t) {i : Nat} {reference : LateBound}
    (reachable : Relation.ReflTransGen (fun p c => c ∈ t.children p) t.root i)
    (late : t.kind i = .lateBound reference) :
    Parser.lateTarget reference.keyword (t.scopeAround i) = .ok reference.target := by
  obtain ⟨s, nodes, complete, -⟩ := complete_of_accepted accepted
  have shaped := complete.shaped
  rw [← nodes] at shaped
  have rooted := SyntaxTree.rooted_of_shaped shaped
  have inside := rooted.in_scope (root_of_accepted accepted) (in_scope_of_accepted accepted) reachable
  cases inside with
  | node found bound below =>
    rw [← SyntaxTree.kind_of_found found, late] at bound
    exact bound

/-- A keyword with a target stands in the body of a type, which gives the target. -/
theorem head_around {t : SyntaxTree} {i : Nat} {keyword : LateKeyword} {target : Option String}
    (known : Parser.lateTarget keyword (t.scopeAround i) = .ok target) :
    ∃ a head, t.findAncestor i NodeKind.declares = some a ∧
      Registration.head? (t.kind a) = some head ∧ target = head.lateTarget keyword ∧
      (keyword = .parent_ → head.kind = .class_ → head.parent.isSome) := by
  rw [SyntaxTree.scopeAround] at known
  cases around : t.findAncestor i NodeKind.declares with
  | none =>
    rw [around] at known
    cases known
  | some a =>
    rw [around] at known
    have declares : (t.kind a).declares = true :=
      List.find?_some (p := fun a => (t.kind a).declares) around
    obtain ⟨head, is, target, parent⟩ := head_of_target declares known
    exact ⟨a, head, rfl, is, target, parent⟩

/-- Every keyword below the root stands in the body of a type, with no function between them: `self`
and `static` stand for that type, and `parent` for the parent that it then has, if it is a class. -/
theorem late_bound_around {source : String} {file : Nat} {t : SyntaxTree}
    (accepted : parse source file = .ok t) {i : Nat} {reference : LateBound}
    (reachable : Relation.ReflTransGen (fun p c => c ∈ t.children p) t.root i)
    (late : t.kind i = .lateBound reference) :
    ∃ a head, t.findAncestor i NodeKind.declares = some a ∧
      Registration.head? (t.kind a) = some head ∧
      reference.target = head.lateTarget reference.keyword ∧
      (reference.keyword = .parent_ → head.kind = .class_ → head.parent.isSome) :=
  head_around (target_in_scope accepted reachable late)

def parentConstant : String :=
  "<?php class A extends B { function f() { return parent::C; } }"

theorem late_bound_around_parent_constant : ∃ t, parse parentConstant 0 = .ok t ∧
    t.kind 1 = .lateBound ⟨.parent_, some "B"⟩ ∧
    Relation.ReflTransGen (fun p c => c ∈ t.children p) t.root 1 ∧
    ∃ a head, t.findAncestor 1 NodeKind.declares = some a ∧
      Registration.head? (t.kind a) = some head ∧ some "B" = head.lateTarget .parent_ := by
  have shows : (parse parentConstant 0).toOption.any (fun t =>
      t.kind 1 = .lateBound ⟨.parent_, some "B"⟩ ∧
        [t.root, 7, 6, 5, 4, 3, 1].IsChain fun p c => c ∈ t.children p) = true := by
    decide +kernel
  cases accepted : parse parentConstant 0 with
  | error errors =>
    rw [accepted] at shows
    cases shows
  | ok t =>
    rw [accepted] at shows
    obtain ⟨late, path⟩ := of_decide_eq_true shows
    have reachable := List.relationReflTransGen_of_exists_isChain_cons _ path rfl
    obtain ⟨a, head, around, is, target, -⟩ := late_bound_around accepted reachable late
    exact ⟨t, rfl, late, reachable, a, head, around, is, target⟩

end PhpAnalyser
