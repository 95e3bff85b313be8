import PhpAnalyser.Proofs.Grammar.Control
/-!
Which parts of a file stand in which namespace. A namespace replaces the names in effect for good,
so only what precedes the first namespace of a list is known to stand in the namespace around it.
-/
namespace PhpAnalyser

variable {c : Setting} {s s₁ s₂ s' : ParserState} {ids more : List Nat}

def Spaced (floor : Nat) (nodes : Array Node) : Prop :=
  ∀ p n space, floor ≤ p → nodes[p]? = some n → n.kind = .namespace_ space →
    Arranged nodes space n.children

/-- From `s` to `s'` the items `ids` of a list were made, in the namespace in effect at `s` up to
the first namespace among them. -/
structure Parted (s s' : ParserState) (ids : List Nat) : Prop where
  items : Arranged s'.nodes s.names.package ids
  package : (∀ i ∈ ids, namespaceAt s'.nodes i = false) → s'.names.package = s.names.package
  spaces : Spaced s.nodes.size s'.nodes

theorem spaced_new {nodes : Array Node} : Spaced nodes.size nodes := by
  intro p n space from_ found
  have low := (Array.getElem?_eq_some_iff.mp found).1
  exact absurd low (Nat.not_lt_of_le from_)

theorem Spaced.then {floor : Nat} {nodes nodes' : Array Node} (first : Spaced floor nodes)
    (linked : Linked nodes) (grown : Extends nodes nodes') (second : Spaced nodes.size nodes') :
    Spaced floor nodes' := by
  intro p n space from_ found isNamespace
  rcases Nat.lt_or_ge p nodes.size with low | high
  · rw [grown.same p low] at found
    exact (first p n space from_ found isNamespace).develops grown.develops
      (linked.children_lt found)
  · exact second p n space high found isNamespace

/-- One more node is made, perhaps a namespace above its contents. -/
theorem Spaced.push {floor : Nat} {nodes nodes' : Array Node} {new : Node}
    (spaced : Spaced floor nodes) (linked : Linked nodes) (develops : Develops nodes nodes')
    (size : nodes'.size = nodes.size + 1) (made : nodes'[nodes.size]? = some new)
    (inside : ∀ i ∈ new.children, i < nodes.size)
    (contents : ∀ space, new.kind = .namespace_ space → Arranged nodes space new.children) :
    Spaced floor nodes' := by
  intro p n space from_ found isNamespace
  have bound := (Array.getElem?_eq_some_iff.mp found).1
  rw [size] at bound
  rcases Nat.lt_succ_iff_lt_or_eq.mp bound with low | rfl
  · obtain ⟨old, here, kind, children⟩ := develops.before low found
    rw [kind] at isNamespace
    rw [children]
    exact (spaced p old space from_ here isNamespace).develops develops (linked.children_lt here)
  · obtain rfl := Option.some.inj (made.symm.trans found)
    exact (contents space isNamespace).develops develops inside

namespace Parted

theorem nil : Parted s s [] where
  items _ member := by cases member
  package _ := rfl
  spaces := spaced_new

theorem append (first : Parted s s₁ ids) (gathered : Gathered c s s₁ ids)
    (second : Parted s₁ s₂ more) (later : Onward s₁ s₂) : Parted s s₂ (ids ++ more) := by
  have develops := later.grown.develops
  have inside : ∀ i ∈ ids, i < s₁.nodes.size := fun i => gathered.pending.lt_size
  have plain (none : ∀ i ∈ ids, namespaceAt s₂.nodes i = false) :
      s₁.names.package = s.names.package := by
    refine first.package fun i member => ?_
    rw [← develops.namespace_at (inside i member)]
    exact none i member
  constructor
  case items =>
    refine (first.items.develops develops inside).append fun none => ?_
    rw [← plain none]
    exact second.items
  case package =>
    intro none
    have here := second.package fun i member => none i (List.mem_append_right _ member)
    exact here.trans (plain fun i member => none i (List.mem_append_left _ member))
  case spaces =>
    exact first.spaces.then gathered.sound.wellFormed.linked later.grown second.spaces

/-- Only names and nodes matter. -/
theorem congr (parted : Parted s₁ s₂ ids) (nodes : s₁.nodes = s.nodes) (names : s₁.names = s.names)
    (nodes' : s'.nodes = s₂.nodes) (names' : s'.names = s₂.names) : Parted s s' ids where
  items := by
    rw [nodes', ← names]
    exact parted.items
  package := by
    rw [nodes', names', ← names]
    exact parted.package
  spaces := by
    rw [nodes', ← nodes]
    exact parted.spaces

end Parted

def Setting.within (c : Setting) (s : ParserState) : Setting :=
  { c with space := some (s.names.package, s.nodes.size) }

theorem Sound.enter (sound : Sound c s) : Sound (c.within s) s where
  toValid := sound.toValid
  depth := sound.depth
  lawful := sound.lawful
  housed _ space floor inside := by
    cases inside
    refine ⟨rfl, fun i n from_ found => ?_⟩
    have low := (Array.getElem?_eq_some_iff.mp found).1
    exact absurd low (Nat.not_lt_of_le from_)
  worded := sound.worded

theorem Gathered.leave (gathered : Gathered (c.within s) s s' ids) (outside : c.space = none) :
    Gathered c s s' ids where
  valid := gathered.valid
  sound := {
    toValid := gathered.sound.toValid
    depth := gathered.sound.depth
    lawful := gathered.sound.lawful
    housed := by
      intro _ space floor inside
      rw [outside] at inside
      cases inside
    worded := gathered.sound.worded }
  onward := gathered.onward
  pending := gathered.pending

/-- What was there before has no parent among the nodes made since. -/
theorem Gathered.closed (gathered : Gathered c s s' ids) {i : Nat} {n : Node}
    (made : s.nodes.size ≤ i) (found : s'.nodes[i]? = some n) :
    ∀ child ∈ n.children, s.nodes.size ≤ child := by
  intro child member
  by_contra old
  obtain ⟨m, there, above⟩ := gathered.sound.wellFormed.linked.child i child n found member
  rw [gathered.onward.grown.same child (Nat.lt_of_not_le old)] at there
  obtain ⟨n', before, -⟩ := gathered.valid.wellFormed.linked.parent child i m there above
  exact absurd (Array.getElem?_eq_some_iff.mp before).1 (Nat.not_lt_of_le made)

theorem Gathered.parted (gathered : Gathered (c.within s) s s' ids) (none : s'.errors = []) :
    Parted s s' ids := by
  have housed := gathered.sound.housed none _ _ rfl
  have region : Region s'.nodes s.names.package s.nodes.size s'.nodes.size := {
    high_le := Nat.le_refl _
    kinds := fun i n from_ _ found => housed.kinds i n from_ found
    closed := fun i n from_ _ found => gathered.closed from_ found }
  constructor
  case items =>
    intro i member
    have listed := (List.takeWhile_prefix _).subset member
    obtain ⟨-, -, from_, -⟩ := gathered.pending.each i listed
    exact ⟨_, _, from_, gathered.pending.lt_size listed, region⟩
  case package => exact fun _ => housed.package
  case spaces =>
    intro p n space from_ found isNamespace
    have inside := housed.kinds p n from_ found
    rw [isNamespace] at inside
    cases inside

end PhpAnalyser
