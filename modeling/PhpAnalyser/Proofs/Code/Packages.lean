import PhpAnalyser.Proofs.Code.Referential
/-!
Where a qualified name and the package of its entity agree: as long as no namespace stands in
front of a declaration or of what is around it, but for the namespaces around it.
-/
namespace PhpAnalyser

namespace SyntaxTree

/-- A step down the tree to a namespace, or to a child in front of all namespaces among its
siblings. -/
structure Leads (t : SyntaxTree) (above below : String × Nat) : Prop extends
    t.Opens above below where
  front : (t.kind below.2).isNamespace ∨
    below.2 ∈ (t.children above.2).takeWhile fun c => !(t.kind c).isNamespace

/-- A node is exposed, and nothing on the way to it but namespaces stands behind a namespace. -/
def Leading (t : SyntaxTree) (space : String) (i : Nat) : Prop :=
  Relation.ReflTransGen t.Leads ("", t.root) (space, i)

def Settled (t : SyntaxTree) (space : String) (i : Nat) : Prop :=
  ((t.kind i).declares = false ∧
    Arranged t.nodes ((t.kind i).spaceBelow space) (t.children i)) ∨
  ∃ low high, low ≤ i ∧ i < high ∧ Region t.nodes space low high

variable {t : SyntaxTree} {space : String} {i : Nat}

theorem namespace_at (t : SyntaxTree) (i : Nat) :
    namespaceAt t.nodes i = (t.kind i).isNamespace := by
  rw [namespaceAt, kindAt, kind, node?]
  cases t.nodes[i]? <;> rfl

theorem node_of_child {above below : String × Nat} (step : t.Opens above below) :
    ∃ n, t.nodes[above.2]? = some n ∧ t.kind above.2 = n.kind ∧ t.children above.2 = n.children := by
  obtain ⟨n, found, -⟩ := children_of_mem step.child
  exact ⟨n, found, by simp [kind, node?, found], by simp [children, node?, found]⟩

theorem Leading.exposed (leading : t.Leading space i) : t.Exposed space i :=
  Relation.ReflTransGen.mono (fun _ _ (step : t.Leads _ _) => step.toOpens) _ _ leading

theorem settled_root (laid : Laid t.nodes t.root) : t.Settled "" t.root := by
  obtain ⟨n, found, unit, arranged⟩ := laid.root
  have kind : t.kind t.root = .compilationUnit := by simp [kind, node?, found, unit]
  have children : t.children t.root = n.children := by simp [children, node?, found]
  left
  rw [kind, children]
  exact ⟨rfl, arranged⟩

theorem settled_namespace (laid : Laid t.nodes t.root) (opens : (t.kind i).isNamespace) :
    t.Settled space i := by
  cases kind : t.kind i with
  | namespace_ name =>
    left
    rw [kind]
    refine ⟨rfl, ?_⟩
    cases found : t.nodes[i]? with
    | none => simp [SyntaxTree.kind, node?, found] at kind
    | some n =>
      have isNamespace : n.kind = .namespace_ name := by
        simpa [SyntaxTree.kind, node?, found] using kind
      have children : t.children i = n.children := by simp [children, node?, found]
      rw [children]
      exact laid.spaces i n name (Nat.zero_le i) found isNamespace
  | _ => simp [kind, NodeKind.isNamespace] at opens

theorem settled_step (laid : Laid t.nodes t.root) (tree : t.Treelike)
    {above below : String × Nat} (step : t.Leads above below)
    (settled : t.Settled above.1 above.2) : t.Settled below.1 below.2 := by
  rcases step.front with opens | front
  · exact settled_namespace laid opens
  right
  rcases settled with ⟨-, arranged⟩ | ⟨low, high, from_, under, region⟩
  · rw [step.space]
    refine arranged below.2 ?_
    simpa only [namespace_at] using front
  · obtain ⟨n, found, kind, children⟩ := node_of_child step.toOpens
    have inside := region.kinds above.2 n from_ under found
    have same : below.1 = above.1 := by
      rw [step.space, kind]
      cases is : n.kind <;> first | rfl | (rw [is] at inside; cases inside)
    have member := step.child
    rw [children] at member
    rw [same]
    exact ⟨low, high, region.closed above.2 n from_ under found below.2 member,
      Nat.lt_trans (tree.below above.2 below.2 step.child) under, region⟩

theorem Leading.settled (laid : Laid t.nodes t.root) (tree : t.Treelike)
    (leading : t.Leading space i) : t.Settled space i := by
  have every : ∀ below : String × Nat, Relation.ReflTransGen t.Leads ("", t.root) below →
      t.Settled below.1 below.2 := by
    intro below path
    induction path with
    | refl => exact settled_root laid
    | tail _ step ih => exact settled_step laid tree step ih
  exact every (space, i) leading

/-- A declaration that is led to is named for the namespace it stands in. -/
theorem Leading.in_space (laid : Laid t.nodes t.root) (tree : t.Treelike)
    (leading : t.Leading space i) (declares : (t.kind i).declares = true) :
    (t.kind i).InSpace space := by
  rcases leading.settled laid tree with ⟨not, -⟩ | ⟨low, high, from_, under, region⟩
  · rw [not] at declares
    cases declares
  · have low_size := Nat.lt_of_lt_of_le under region.high_le
    have found := Array.getElem?_eq_getElem low_size
    have kind : t.kind i = t.nodes[i].kind := by simp [kind, node?, found]
    rw [kind]
    exact region.kinds i _ from_ under found

end SyntaxTree

theorem parse_laid {source : String} {file : Nat} {t : SyntaxTree}
    (accepted : parse source file = .ok t) : Laid t.nodes t.root := by
  rcases parse_run source file with ⟨s, root, -, -, laid, same⟩ | ⟨s, e, -, -, same⟩
  · by_cases none : s.errors = []
    · simp only [parse, parseTokens, same, none, List.isEmpty_nil, if_true, Option.getD_some,
        Except.ok.injEq] at accepted
      rw [← accepted]
      exact laid none
    · simp [parse, parseTokens, same, none] at accepted
  · simp [parse, parseTokens, same] at accepted

theorem Added.outcome_laid {call : Added} {file : Nat} {t : SyntaxTree}
    (accepted : call.outcome file = .ok t) : Laid t.nodes t.root := by
  obtain ⟨source, parsed⟩ := Added.parse_of_outcome accepted
  exact parse_laid parsed

theorem SyntaxTree.Marked.develops {t t' : SyntaxTree} (marked : t.Marked t') :
    Develops t.nodes t'.nodes := by
  intro i n found
  have same := marked.node i
  simp only [node?, found, Option.map_some] at same
  obtain ⟨n', found', bare⟩ := Option.map_eq_some_iff.mp same
  have fields := congrArg (fun m : Node => (m.kind, m.span, m.children)) bare
  simp only [Node.bare, Prod.mk.injEq] at fields
  exact ⟨n', found', fields⟩

theorem Laid.marked {t t' : SyntaxTree} (laid : Laid t.nodes t.root) (tree : t.Treelike)
    (marked : t.Marked t') : Laid t'.nodes t'.root := by
  have inside {p : Nat} {n : Node} (found : t.nodes[p]? = some n) :
      ∀ c ∈ n.children, c < t.nodes.size := by
    intro c member
    refine tree.within p c ?_
    simpa [SyntaxTree.children, SyntaxTree.node?, found] using member
  constructor
  · obtain ⟨n, found, unit, arranged⟩ := laid.root
    obtain ⟨n', found', kind, -, children⟩ := marked.develops t.root n found
    rw [marked.root]
    refine ⟨n', found', kind.trans unit, ?_⟩
    rw [children]
    exact arranged.develops marked.develops (inside found)
  · intro p n space from_ found isNamespace
    have low : p < t.nodes.size := by
      have bound := (Array.getElem?_eq_some_iff.mp found).1
      have size : t'.nodes.size = t.nodes.size := marked.size
      omega
    obtain ⟨old, here, kind, children⟩ := marked.develops.before low found
    rw [kind] at isNamespace
    rw [children]
    exact (laid.spaces p old space from_ here isNamespace).develops marked.develops (inside here)

theorem Kept.laid {calls : List Added} {a : Assembly} (kept : Kept calls a) {f : SourceFile}
    (there : f ∈ a.model.files) : Laid f.tree.nodes f.tree.root := by
  obtain ⟨call, t, read, marked, -⟩ := kept.read_as there
  exact (Added.outcome_laid read).marked (Added.outcome_tree read).2 marked

def CodeModel.Lists (m : CodeModel) (name : String) (ids : Package → List Nat) (id : Nat) : Prop :=
  ∃ k p, m.symbols.package? (packageName (namespacePart name)) = some k ∧
    m.package? k = some p ∧ id ∈ ids p

theorem stands_of_head {kind : NodeKind} {head : Registration.TypeHead} {space : String}
    (is : Registration.head? kind = some head) (inside : kind.InSpace space) :
    StandsIn space head.name := by
  cases kind <;> cases is <;> exact inside

namespace Kept

variable {calls : List Added} {a : Assembly} {f : SourceFile} {space : String} {i : Nat}

/-- The place where a declaration was found is the one it is led to. -/
theorem space_unique (kept : Kept calls a) (there : f ∈ a.model.files) {found : String}
    (entry : (found, i) ∈ f.tree.declarations "" f.tree.root) (leading : f.tree.Leading space i)
    (declares : (f.tree.kind i).declares = true) : found = space := by
  have tree := (kept.files f there).treelike
  have listed := (SyntaxTree.mem_declarations_root tree.below).mpr ⟨leading.exposed, declares⟩
  exact SyntaxTree.exposed_space tree entry listed

theorem type_listed (kept : Kept calls a) (there : f ∈ a.model.files)
    (leading : f.tree.Leading space i) {d : TypeDecl} (member : d ∈ a.model.types)
    (here : d.entity = .node f.id i) : a.model.Lists d.qualifiedName Package.types d.id := by
  have file := kept.files f there
  obtain ⟨same, rfl⟩ := EntityId.node.inj here
  have sourced := file.sourced.types d member (same.trans file.file.symm)
  obtain ⟨head, is, -, named⟩ := sourced.at_.head
  have declares : (f.tree.kind d.node).declares = true := by
    cases kind : f.tree.kind d.node <;> first | rfl | (rw [kind] at is; cases is)
  obtain ⟨found, entry, package⟩ := sourced.entry
  obtain rfl := kept.space_unique there entry leading declares
  have stands := stands_of_head is (leading.in_space (kept.laid there) file.treelike declares)
  have listed := Array.mem_toList_iff.mpr member
  have housed := kept.indexed.packed.types_housed d listed
  refine ⟨d.package, _, ?_, Array.getElem?_eq_getElem housed, ?_⟩
  · rw [named, stands.namespace_part]
    exact package
  · have id := kept.indexed.packed.numbered _ _ (Array.getElem?_eq_getElem housed)
    rw [kept.indexed.packed.lists_types _ (Array.getElem_mem housed), id]
    exact List.mem_map.mpr ⟨d, List.mem_filter.mpr ⟨listed, by simp⟩, rfl⟩

theorem function_listed (kept : Kept calls a) (there : f ∈ a.model.files)
    (leading : f.tree.Leading space i) {c : Callable} (member : c ∈ a.model.callables)
    (function : c.isMethod = false) (here : c.entity = .node f.id i) :
    a.model.Lists c.qualifiedName Package.functions c.id := by
  have file := kept.files f there
  obtain ⟨same, rfl⟩ := EntityId.node.inj here
  cases kind : c.kind with
  | method owner =>
    rw [is_method_of_method kind] at function
    cases function
  | function k =>
    have sourced := file.sourced.functions c member (same.trans file.file.symm) k kind
    obtain ⟨byRef, head⟩ := sourced.at_.head
    have declares : (f.tree.kind c.node).declares = true := by rw [head]; rfl
    obtain ⟨found, entry, package⟩ := sourced.entry
    obtain rfl := kept.space_unique there entry leading declares
    have stands : StandsIn found c.qualifiedName := by
      have inside := leading.in_space (kept.laid there) file.treelike declares
      rwa [head] at inside
    have listed := Array.mem_toList_iff.mpr member
    have housed := kept.indexed.packed.functions_housed c listed k kind
    refine ⟨k, _, ?_, Array.getElem?_eq_getElem housed, ?_⟩
    · rw [stands.namespace_part]
      exact package
    · have id := kept.indexed.packed.numbered _ _ (Array.getElem?_eq_getElem housed)
      rw [kept.indexed.packed.lists_functions _ (Array.getElem_mem housed), id]
      exact List.mem_map.mpr ⟨c, List.mem_filter.mpr ⟨listed, by simp [kind]⟩, rfl⟩

end Kept

/-- A type or function that is led to is in the package of the namespace part of its name. -/
theorem package_after (calls : List Added) {f : SourceFile} {space : String} {i : Nat}
    (there : f ∈ (Assembly.after calls).model.files) (leading : f.tree.Leading space i) :
    (∀ d ∈ (Assembly.after calls).model.types, d.entity = .node f.id i →
      (Assembly.after calls).model.Lists d.qualifiedName Package.types d.id) ∧
    ∀ c ∈ (Assembly.after calls).model.callables, c.isMethod = false → c.entity = .node f.id i →
      (Assembly.after calls).model.Lists c.qualifiedName Package.functions c.id := by
  have kept := kept_after calls
  exact ⟨fun d member here => kept.type_listed there leading member here,
    fun c member function here => kept.function_listed there leading member function here⟩

theorem package_after_statement_form :
    ∃ m : CodeModel, m = (Assembly.after [.source "a.php" "<?php namespace A; class X {}"]).model ∧
      ∃ f ∈ m.files, ∃ d ∈ m.types, f.tree.Leading "A" d.node ∧ d.entity = .node f.id d.node ∧
        m.Lists d.qualifiedName Package.types d.id := by
  let m := (Assembly.after [.source "a.php" "<?php namespace A; class X {}"]).model
  have files : m.files.map (fun f => (f.id, f.tree.root, [2, 1, 0].map f.tree.kind,
      [2, 1].map f.tree.children)) =
        [(0, 2, [.compilationUnit, .namespace_ "A", .class_ "A\\X" .none none []], [[1], [0]])] := by
    decide +kernel
  have types : m.types.toList.map (fun d => (d.file, d.node)) = [(0, 0)] := by decide +kernel
  obtain ⟨f, only, same⟩ := List.map_eq_singleton_iff.mp files
  obtain ⟨d, single, place⟩ := List.map_eq_singleton_iff.mp types
  simp only [Prod.mk.injEq, List.map_cons, List.cons.injEq] at same place
  obtain ⟨id, root, ⟨unit, opens, type, -⟩, ⟨outer, inner, -⟩⟩ := same
  have first : f.tree.Leads ("", 2) ("", 1) := by
    refine ⟨⟨?_, ?_, ?_⟩, .inl ?_⟩ <;>
      simp [unit, outer, opens, NodeKind.isBody, NodeKind.spaceBelow, NodeKind.isNamespace]
  have second : f.tree.Leads ("", 1) ("A", 0) := by
    refine ⟨⟨?_, ?_, ?_⟩, .inr ?_⟩ <;>
      simp [inner, opens, type, NodeKind.isBody, NodeKind.spaceBelow, NodeKind.isNamespace]
  have leading : f.tree.Leading "A" d.node := by
    rw [SyntaxTree.Leading, root, place.2]
    exact .tail (.single first) second
  have there : f ∈ m.files := by simp [only]
  have member : d ∈ m.types := Array.mem_toList_iff.mp (by simp [single])
  have here : d.entity = .node f.id d.node := by rw [TypeDecl.entity, id, place.1]
  exact ⟨m, rfl, f, there, d, member, leading, here, (package_after _ there leading).1 d member here⟩

end PhpAnalyser
