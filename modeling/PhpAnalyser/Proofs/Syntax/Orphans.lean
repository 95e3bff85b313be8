import PhpAnalyser.Measure.Complexity
import PhpAnalyser.Proofs.Syntax.Descent
import PhpAnalyser.Proofs.Upkeep.Unit
/-!
What is below the root of a finished tree. Readers hand on the nodes that they make, except for the
expression in braces that names a member: it stays without a parent, and no walk from the root comes
past it. A tree without such members is whole.
-/
namespace PhpAnalyser

theorem surplus_eq (nodes : List Node) : (nodes.map Node.surplus).sum =
    nodes.length - (nodes.flatMap (·.children)).length -
      nodes.countP fun n => n.kind.isNamedByExpression := by
  induction nodes with
  | nil => rfl
  | cons n nodes ih =>
    simp only [List.map_cons, List.sum_cons, ih, Node.surplus, List.length_cons, List.flatMap_cons,
      List.length_append, List.countP_cons]
    split <;> omega

/-- In a finished tree there is one node more than there are children and named members. -/
theorem surplus_of_accepted {source : String} {file : Nat} {t : SyntaxTree}
    (accepted : parse source file = .ok t) : surplus t.nodes = 1 := by
  obtain ⟨s, run, nodes, clean⟩ := clean_run_of_accepted accepted
  have law : NameLaw (HasRootedMember (scan source).toArray) fun _ => True :=
    ⟨fun _ _ => trivial, fun _ _ _ _ => trivial, fun _ _ _ _ _ => trivial⟩
  have fine : NamesFine (fun _ => True) (.initial (.ofSource source)) :=
    ⟨.global _, fun _ _ => ⟨trivial, fun _ _ => trivial⟩, fun _ _ _ _ => trivial⟩
  obtain ⟨-, count⟩ := Upholds.compilationUnit ⟨lettered_scan source, law⟩ _
    (tokens_initial source) fine _ s run
  rw [nodes]
  simpa [surplus, ParserState.initial] using (count _ rfl).2 clean

namespace SyntaxTree

variable {t : SyntaxTree}

theorem nodes_range (t : SyntaxTree) :
    (List.range t.size).map t.node? = t.nodes.toList.map some := by
  apply List.ext_getElem <;> simp [size, node?]

theorem children_range (t : SyntaxTree) :
    (List.range t.size).flatMap t.children = t.nodes.toList.flatMap (·.children) := by
  calc (List.range t.size).flatMap t.children
      = ((List.range t.size).map t.node?).flatMap (·.elim [] (·.children)) := by
        rw [List.flatMap_map]
        rfl
    _ = t.nodes.toList.flatMap (·.children) := by
        rw [nodes_range, List.flatMap_map]
        rfl

def orphans (t : SyntaxTree) : List Nat := t.tops.filter (· != t.root)

theorem mem_orphans {i : Nat} : i ∈ t.orphans ↔ i < t.size ∧ t.parent i = none ∧ i ≠ t.root := by
  simp [orphans, tops, and_assoc, and_comm]

theorem tops_perm (rooted : t.Rooted) (last : t.size = t.root + 1) :
    t.tops.Perm (t.root :: t.orphans) := by
  have apart : t.tops.Nodup := List.nodup_range.filter _
  have isTop : t.root ∈ t.tops := by
    refine Grown.mem_tops.mpr ⟨by omega, ?_⟩
    by_contra some
    obtain ⟨p, above⟩ := Option.ne_none_iff_exists'.mp some
    have behind := rooted.above t.root p above
    omega
  rw [orphans, ← apart.erase_eq_filter]
  exact List.perm_cons_erase isTop

/-- There is an orphan for each member that is named by an expression. -/
theorem length_orphans {source : String} {file : Nat} (accepted : parse source file = .ok t) :
    t.orphans.length = t.nodes.toList.countP fun n => n.kind.isNamedByExpression := by
  have grown := grown_of_accepted accepted
  have made := grown.children_perm.length_eq
  have unadopted := (tops_perm grown.rooted (root_of_accepted accepted)).length_eq
  have count := surplus_of_accepted accepted
  rw [surplus, surplus_eq, ← children_range] at count
  simp only [List.length_append, List.length_range, List.length_cons, size,
    Array.length_toList] at *
  omega

/-- The root and the orphans divide all nodes among them. -/
theorem orphans_perm (grown : t.Grown) (last : t.size = t.root + 1) :
    (t.root :: t.descendants t.root ++ t.orphans.flatMap fun o => o :: t.descendants o).Perm
      (List.range t.size) := by
  simp only [← line_descendants grown.tree]
  exact ((tops_perm grown.rooted last).flatMap_right _).symm.trans grown.lines_perm

/-- A visit comes past a node unless it does not go below one on the way. -/
theorem Grown.mem_visit_iff (grown : t.Grown) (skipped : NodeKind → Bool) (a i : Nat) :
    i ∈ t.visit skipped a ↔ i = a ∨ a ∈ t.ancestors i ∧
      ∀ p ∈ t.ancestors i, p = a ∨ a ∈ t.ancestors p → skipped (t.kind p) = false := by
  rw [mem_visit grown.tree.below]
  constructor
  · intro path
    induction path with
    | refl => exact .inl rfl
    | @tail p c path step ih =>
      obtain ⟨entered, child⟩ := step
      rw [grown.rooted.ancestors_child child]
      refine .inr ⟨List.mem_cons.mpr (ih.imp Eq.symm And.left), ?_⟩
      intro q way below
      rcases List.mem_cons.mp way with rfl | way
      · exact entered
      rcases ih with rfl | ⟨-, passed⟩
      · -- What is above the start of the visit is not below it.
        have above := grown.lt_of_mem_ancestors way
        rcases below with rfl | below
        · omega
        · have under := grown.lt_of_mem_ancestors below
          omega
      · exact passed q way below
  · rintro (rfl | ⟨above, passed⟩)
    · exact .refl
    · rw [grown.mem_ancestors] at above
      induction above with
      | @single i child =>
        have way : a ∈ t.ancestors i := grown.mem_ancestors.mpr (.single child)
        exact .single ⟨passed a way (.inl rfl), child⟩
      | @tail p i path child ih =>
        rw [grown.rooted.ancestors_child child] at passed
        have down := ih fun q way => passed q (List.mem_cons_of_mem p way)
        exact down.tail ⟨passed p List.mem_cons_self (.inr (grown.mem_ancestors.mpr path)), child⟩

/-- All nodes are the root and what is below it, each once; and those that walk the tree find
them: a visit of all of it, the search of a type for the keywords that name it, and the count of a body. -/
structure Whole (t : SyntaxTree) : Prop where
  once : (t.root :: t.descendants t.root).Perm (List.range t.size)
  parent : ∀ i, i < t.size → i ≠ t.root → ∃ p, t.parent i = some p
  visited : ∀ i, i < t.size → i ∈ t.visit (fun _ => false) t.root
  primed : ∀ i reference, t.kind i = .lateBound reference → reference.keyword ≠ .parent_ →
    ∃ a head, t.findAncestor i NodeKind.declares = some a ∧
      Registration.head? (t.kind a) = some head ∧ i ∈ t.lateBoundTo a head.name
  counted : ∀ body i, i ∈ t.visit NodeKind.isNestedDeclaration body ↔
    i = body ∨ body ∈ t.ancestors i ∧ ∀ p ∈ t.ancestors i, p = body ∨ body ∈ t.ancestors p →
      (t.kind p).isNestedDeclaration = false

/-- Below the root, a keyword other than `parent` is found from the type that it names. -/
theorem primed_of_reachable {source : String} {file : Nat} (accepted : parse source file = .ok t)
    {i : Nat} (reachable : i ∈ t.line t.root) {reference : LateBound}
    (late : t.kind i = .lateBound reference) (other : reference.keyword ≠ .parent_) :
    ∃ a head, t.findAncestor i NodeKind.declares = some a ∧
      Registration.head? (t.kind a) = some head ∧ i ∈ t.lateBoundTo a head.name := by
  have grown := grown_of_accepted accepted
  rw [mem_line grown.tree.below] at reachable
  obtain ⟨a, head, around, is, target, -⟩ :=
    head_around (target_in_scope accepted reachable late)
  refine ⟨a, head, around, is, ?_⟩
  have inside : i ∈ t.descendants a := grown.mem_descendants.mpr (List.mem_of_find?_eq_some around)
  have named : reference.target = some head.name := by
    rw [target]
    cases keyword : reference.keyword with
    | parent_ => exact absurd keyword other
    | _ => rfl
  rw [lateBoundTo, List.mem_filter]
  refine ⟨inside, ?_⟩
  simp [late, other, named, sameAsciiCase]

theorem whole_of_no_orphans {source : String} {file : Nat} (accepted : parse source file = .ok t)
    (none : t.orphans = []) : t.Whole := by
  have grown := grown_of_accepted accepted
  have last := root_of_accepted accepted
  have once : (t.line t.root).Perm (List.range t.size) := by
    have all := orphans_perm grown last
    rwa [none, List.flatMap_nil, List.append_nil, ← line_descendants grown.tree] at all
  have reachable {i : Nat} (inside : i < t.size) : i ∈ t.line t.root :=
    once.mem_iff.mpr (List.mem_range.mpr inside)
  refine ⟨line_descendants grown.tree t.root ▸ once, ?_, fun i => reachable, ?_, ?_⟩
  · intro i inside other
    by_contra lost
    have orphan : i ∈ t.orphans := mem_orphans.mpr
      ⟨inside, Option.eq_none_iff_forall_ne_some.mpr fun p same => lost ⟨p, same⟩, other⟩
    rw [none] at orphan
    cases orphan
  · intro i reference late
    have inside : i < t.size := by
      by_contra outside
      rw [kind, node?, Array.getElem?_eq_none (Nat.not_lt.mp outside)] at late
      cases late
    exact primed_of_reachable accepted (reachable inside) late
  · exact grown.mem_visit_iff NodeKind.isNestedDeclaration

theorem Whole.no_orphans (whole : t.Whole) : t.orphans = [] := by
  refine List.eq_nil_iff_forall_not_mem.mpr fun i orphan => ?_
  obtain ⟨inside, none, other⟩ := mem_orphans.mp orphan
  obtain ⟨p, parent⟩ := whole.parent i inside other
  rw [none] at parent
  cases parent

end SyntaxTree

/-- In a finished tree nothing is lost but the expressions in braces that name members: there is one
node without a parent for each of them and the root, and what is at and below these are all nodes,
each once. So the tree is whole just when no member is named by an expression. -/
theorem lost_nodes {source : String} {file : Nat} {t : SyntaxTree}
    (accepted : parse source file = .ok t) :
    (t.Whole ↔ ∀ n ∈ t.nodes, n.kind.isNamedByExpression = false) ∧
      t.orphans.length = (t.nodes.toList.countP fun n => n.kind.isNamedByExpression) ∧
      (t.root :: t.descendants t.root ++ t.orphans.flatMap fun o => o :: t.descendants o).Perm
        (List.range t.size) := by
  have count := SyntaxTree.length_orphans accepted
  refine ⟨?_, count, ?_⟩
  · have none : t.orphans = [] ↔ ∀ n ∈ t.nodes, n.kind.isNamedByExpression = false := by
      rw [← List.length_eq_zero_iff, count, List.countP_eq_zero]
      simp
    rw [← none]
    exact ⟨SyntaxTree.Whole.no_orphans, SyntaxTree.whole_of_no_orphans accepted⟩
  · exact SyntaxTree.orphans_perm (SyntaxTree.grown_of_accepted accepted)
      (root_of_accepted accepted)

example : (parse "<?php $a->{$b};" 0).toOption.map SyntaxTree.orphans = some [1] := by
  decide +kernel

def dynamicNames : String :=
  "<?php class A { function f($x) { return self::$b[$x->$c] ?: static::g(function () { return ${$this->d}; }); } }"

theorem lost_nodes_dynamic_names : ∃ t, parse dynamicNames 0 = .ok t ∧ t.Whole ∧
    (t.root :: t.descendants t.root).Perm (List.range t.size) ∧ t.size = 27 := by
  have shows : (parse dynamicNames 0).toOption.any (fun t => t.size = 27 ∧
      ∀ n ∈ t.nodes, n.kind.isNamedByExpression = false) = true := by decide +kernel
  obtain ⟨t, accepted, shown⟩ := ok_of_any shows
  obtain ⟨size, none⟩ := of_decide_eq_true shown
  have whole := (lost_nodes accepted).1.mpr none
  exact ⟨t, accepted, whole, whole.once, size⟩

end PhpAnalyser
