import Mathlib.Data.List.Flatten
import PhpAnalyser.Proofs.Measure.Totals
import PhpAnalyser.Proofs.Syntax.Orphans
/-!
The decisions of a body. A visitor counts them that turns back where a declaration is nested in the
body, and closures are no such declarations. What it comes past is what belongs to the body: the
body itself and the nodes below it, but for those below a nested declaration.
-/
namespace PhpAnalyser

namespace SyntaxTree

def bodyNodes (t : SyntaxTree) (body : Nat) : List Nat :=
  (body :: t.descendants body).filter fun i =>
    ∀ p ∈ t.ancestors i, body ∈ t.ancestors p → (t.kind p).isNestedDeclaration = false

end SyntaxTree

def NodeKind.decisions (kind : NodeKind) : Complexity :=
  ⟨kind.isBranch.toNat, kind.isBranch.toNat + kind.isShortcut.toNat⟩

namespace Complexity

def one : Complexity := ⟨1, 1⟩

def branch (c : Complexity) : Complexity := ⟨c.ccn + 1, c.ccn2 + 1⟩

def shortcut (c : Complexity) : Complexity := ⟨c.ccn, c.ccn2 + 1⟩

/-- The visitor that counts decisions. It has no method for most kinds, and then it walks on. -/
def counter (t : SyntaxTree) : Visitor Complexity where
  own
    | .class_ | .interface_ | .trait_ | .function_ => some fun _ _ c => c
    | .if_ | .elseIf | .while_ | .doWhile | .for_ | .foreach | .catch_ | .conditional =>
      some fun _ walk c => walk c.branch
    | .switchLabel => some fun i walk c =>
      if t.kind i = .switchLabel true then walk c else walk c.branch
    | .booleanAnd | .booleanOr | .logicalAnd | .logicalOr | .logicalXor =>
      some fun _ walk c => walk c.shortcut
    | _ => none

/-- A complexity is the count of the decisions that belong to a body. -/
structure Counts (c : Complexity) (t : SyntaxTree) (body : Option Nat) : Prop where
  missing : body = none → c = one
  branches : ∀ b ∈ body, c.ccn = 1 + (t.bodyNodes b).countP fun i => (t.kind i).isBranch
  shortcuts : ∀ b ∈ body, c.ccn2 = c.ccn + (t.bodyNodes b).countP fun i => (t.kind i).isShortcut
  counted : ∀ b ∈ body, c = t.accept (counter t) b one

variable {t : SyntaxTree}

/-- The visitor does the same at every kind: it turns back at nested declarations, and walks on from
all others with what they add. -/
theorem call_counter {i : Nat} {kind : NodeKind} (is : t.kind i = kind)
    (walk : Complexity → Complexity) (c : Complexity) :
    (counter t).call kind.visitMethod i walk c =
      if kind.isNestedDeclaration then c else walk (c.add kind.decisions) := by
  cases kind with
  | switchLabel isDefault =>
    have own : (counter t).call .switchLabel i walk c =
        if t.kind i = .switchLabel true then walk c else walk c.branch := rfl
    rw [NodeKind.visitMethod, own, is]
    cases isDefault <;> rfl
  | _ => rfl

theorem accept_counter (below : ∀ p, ∀ c ∈ t.children p, c < p) (i : Nat) (c : Complexity) :
    t.accept (counter t) i c =
      (t.visit NodeKind.isNestedDeclaration i).foldl (fun c j => c.add (t.kind j).decisions) c := by
  induction i using Nat.strongRecOn generalizing c with
  | _ i ih =>
    rw [SyntaxTree.accept_eq below, SyntaxTree.visit_eq below, call_counter rfl]
    split
    next nested =>
      -- A nested declaration is itself no decision.
      have none : (t.kind i).decisions = ⟨0, 0⟩ := by
        cases kind : t.kind i <;> first | rfl | (rw [kind] at nested; cases nested)
      rw [List.foldl_cons, none]
      rfl
    next =>
      rw [List.foldl_cons, List.foldl_flatMap]
      exact List.foldl_ext _ _ _ fun c child member => ih child (below i child member) c

theorem foldl_decisions (nodes : List Nat) (c : Complexity) :
    nodes.foldl (fun c i => c.add (t.kind i).decisions) c =
      ⟨c.ccn + nodes.countP fun i => (t.kind i).isBranch,
        c.ccn2 + ((nodes.countP fun i => (t.kind i).isBranch) +
          nodes.countP fun i => (t.kind i).isShortcut)⟩ := by
  induction nodes generalizing c with
  | nil => rfl
  | cons i nodes ih =>
    have flag (b : Bool) : b.toNat = if b = true then 1 else 0 := by cases b <;> rfl
    rw [List.foldl_cons, ih, List.countP_cons, List.countP_cons, ← flag, ← flag]
    simp only [add, NodeKind.decisions, mk.injEq]
    omega

/-- What the visitor counts in a body is its complexity. -/
theorem accept_one (below : ∀ p, ∀ c ∈ t.children p, c < p) (body : Nat) :
    t.accept (counter t) body one = ofBody t (some body) := by
  rw [accept_counter below, foldl_decisions, ofBody, kindsOf, Option.elim_some, List.countP_map,
    List.countP_map]
  simp only [one, mk.injEq, Function.comp_def]
  omega

end Complexity

namespace SyntaxTree

variable {t : SyntaxTree}

theorem visit_sublist_line (below : ∀ p, ∀ c ∈ t.children p, c < p) (skipped : NodeKind → Bool)
    (i : Nat) : (t.visit skipped i).Sublist (t.line i) := by
  induction i using Nat.strongRecOn with
  | _ i ih =>
    rw [visit_eq below, line_eq below]
    split
    · exact (List.nil_sublist _).cons_cons i
    · exact (List.Sublist.flatMap_right _ fun c member => ih c (below i c member)).cons_cons i

/-- The body of a callable is a block, which is no nested declaration. -/
theorem body_enters {i body : Nat} (found : t.bodyOf i = some body) :
    (t.kind body).isNestedDeclaration = false := by
  have block : t.kind body = .scope := by simpa using List.find?_some found
  rw [block]
  rfl

/-- A visit of a body comes past the nodes that belong to it, each once. -/
theorem Grown.visit_perm (grown : t.Grown) {body : Nat}
    (entered : (t.kind body).isNestedDeclaration = false) :
    (t.visit NodeKind.isNestedDeclaration body).Perm (t.bodyNodes body) := by
  have once : (body :: t.descendants body).Nodup :=
    line_descendants grown.tree body ▸ line_nodup grown.tree body
  have visited := (line_nodup grown.tree body).sublist
    (visit_sublist_line grown.tree.below NodeKind.isNestedDeclaration body)
  refine (List.perm_ext_iff_of_nodup visited (once.filter _)).mpr fun i => ?_
  rw [grown.mem_visit_iff, List.mem_filter, List.mem_cons, grown.mem_descendants, decide_eq_true_eq]
  constructor
  · rintro (rfl | ⟨under, open_⟩)
    · -- No node is both above the body and below it.
      refine ⟨.inl rfl, fun p above below => ?_⟩
      have up := grown.lt_of_mem_ancestors above
      have down := grown.lt_of_mem_ancestors below
      omega
    · exact ⟨.inr under, fun p way below => open_ p way (.inr below)⟩
  · rintro ⟨rfl | under, open_⟩
    · exact .inl rfl
    · refine .inr ⟨under, fun p way => ?_⟩
      rintro (rfl | below)
      · exact entered
      · exact open_ p way below

theorem Grown.counts (grown : t.Grown) (i : Nat) :
    (Complexity.ofBody t (t.bodyOf i)).Counts t (t.bodyOf i) := by
  cases found : t.bodyOf i with
  | none =>
    refine ⟨fun _ => rfl, ?_, ?_, ?_⟩
    all_goals rintro b ⟨⟩
  | some body =>
    have perm := grown.visit_perm (body_enters found)
    have counted (p : NodeKind → Bool) :
        (Complexity.kindsOf t (some body)).countP p =
          (t.bodyNodes body).countP fun i => p (t.kind i) := by
      rw [Complexity.kindsOf, Option.elim_some, List.countP_map, perm.countP_eq]
      rfl
    refine ⟨?_, ?_, ?_, ?_⟩
    · rintro ⟨⟩
    · rintro b ⟨⟩
      rw [Complexity.ofBody, counted, Nat.add_comm]
    · rintro b ⟨⟩
      rw [Complexity.ofBody, counted, counted]
      dsimp only
      omega
    · rintro b ⟨⟩
      exact (Complexity.accept_one grown.tree.below body).symm

theorem Marked.grown {t' : SyntaxTree} (marked : t.Marked t') (grown : t.Grown) : t'.Grown := by
  refine ⟨marked.treelike grown.tree, ⟨?_, ?_⟩, ?_⟩
  · rw [marked.children, marked.parent]
    exact grown.rooted.parent
  · rw [marked.parent, marked.size]
    exact grown.rooted.above
  · rw [marked.children, marked.parent]
    exact grown.listed

end SyntaxTree

theorem Kept.grown {calls : List Added} {a : Assembly} (kept : Kept calls a) {f : SourceFile}
    (there : f ∈ a.model.files) : f.tree.Grown := by
  obtain ⟨call, t, read, marked, -⟩ := kept.read_as there
  obtain ⟨source, parsed⟩ := Added.parse_of_outcome read
  exact marked.grown (SyntaxTree.grown_of_accepted parsed)

/-- The callables of a model are measured in the trees of their files. -/
theorem Assembly.body_counts (calls : List Added) {c : Callable}
    (member : c ∈ (finished calls).callables) :
    ∃ file, (finished calls).file? c.file = some file ∧ c.body = file.tree.bodyOf c.node ∧
      ((finished calls).complexity c).Counts file.tree c.body := by
  have kept := kept_after calls
  obtain ⟨file, found, body, -⟩ := kept.body_of member
  have there : (finished calls).file? c.file = some file := found
  have grown := kept.grown (List.mem_of_find?_eq_some found)
  refine ⟨file, there, body, ?_⟩
  rw [CodeModel.complexity, FileTable.complexity, there, body]
  exact grown.counts c.node

/-- Complexity is a count of nodes: of the decisions that belong to a body, in every tree and for
every callable of a model. What a filter accepts is reported with its complexity, and the project
with the sums over all callables that are accepted. -/
theorem Assembly.complexity_counted (calls : List Added) (f : Filter) (results : Results) :
    let m := finished calls
    let measured := Complexity.analyzer.measure m f results
    let accepted := m.callables.toList.filter (f.acceptsCallable m)
    (∀ source file t, parse source file = .ok t →
      ∀ i, (Complexity.ofBody t (t.bodyOf i)).Counts t (t.bodyOf i)) ∧
    (∀ c ∈ m.callables, ∃ file, m.file? c.file = some file ∧ c.body = file.tree.bodyOf c.node ∧
      (m.complexity c).Counts file.tree c.body) ∧
    (∀ c ∈ accepted, measured.nodes.of c.entity = (m.complexity c).metrics) ∧
    measured.project = .ofCounts
      [("ccn", (accepted.map fun c => (m.complexity c).ccn).sum),
        ("ccn2", (accepted.map fun c => (m.complexity c).ccn2).sum)] := by
  intro m measured accepted
  have measurable : m.Measurable := measurable calls
  have perm : (f.acceptedCallables m).Perm accepted := measurable.accepted_perm
  refine ⟨fun source file t parsed => (SyntaxTree.grown_of_accepted parsed).counts,
    fun c member => body_counts calls member,
    fun c listed => measurable.complexity_of results (perm.mem_iff.mpr listed), ?_⟩
  rw [← (perm.map _).sum_nat, ← (perm.map _).sum_nat]
  exact Complexity.project_eq measurable results

def Assembly.nestedDecisions : Added := .source "nested.php"
  "<?php function f($a) { $g = function () { while ($a && 1) {} }; function h() { if (1) {} } }"

example : let m := Assembly.finished [Assembly.nestedDecisions]
    (m.callables.toList.map fun c => (c.name, m.complexity c)) = [("f", ⟨2, 3⟩)] := by
  decide +kernel

end PhpAnalyser
