import PhpAnalyser.Proofs.Syntax.Arena
/-!
The shape of a finished tree.
-/
namespace PhpAnalyser

/-- Children come before their parent and name it as such, the spans of a node's children lie in
order within its own, and all spans are made of tokens, but for that of an empty file. -/
structure Shaped (tokens : Array Token) (nodes : Array Node) : Prop where
  below : ∀ (p : Nat) (n : Node), nodes[p]? = some n → ∀ c ∈ n.children, c < p
  linked : ∀ (c p : Nat) (m : Node), nodes[c]? = some m →
    (m.parent = some p ↔ ∃ n, nodes[p]? = some n ∧ c ∈ n.children)
  once : ∀ (p : Nat) (n : Node), nodes[p]? = some n → n.children.Nodup
  extent : ∀ (p : Nat) (n : Node), nodes[p]? = some n → n.span.start ≤ n.span.stop
  covers : ∀ (p c : Nat) (n m : Node), nodes[p]? = some n → nodes[c]? = some m → c ∈ n.children →
    n.span.start ≤ m.span.start ∧ m.span.stop ≤ n.span.stop
  ordered : ∀ (p : Nat) (n : Node), nodes[p]? = some n →
    n.children.Pairwise fun c d => (spanAt nodes c).Precedes (spanAt nodes d)
  anchored : ∀ (p : Nat) (n : Node), nodes[p]? = some n →
    (n.kind = .compilationUnit ∧ n.children = []) ∨ Anchored tokens n.span

section Finish

variable {tokens : Array Token} {nodes : Array Node}

theorem Linked.shaped (linked : Linked nodes)
    (encloses : ∀ (p : Nat) (n : Node), nodes[p]? = some n → Encloses nodes n.span n.children)
    (anchored : ∀ (p : Nat) (n : Node), nodes[p]? = some n →
      (n.kind = .compilationUnit ∧ n.children = [] ∧ n.span = .origin) ∨ Anchored tokens n.span) :
    Shaped tokens nodes where
  below := linked.below
  linked c p m found := by
    constructor
    · exact linked.parent c p m found
    · rintro ⟨n, there, member⟩
      obtain ⟨m', found', above⟩ := linked.child p c n there member
      rw [found] at found'
      rw [Option.some.inj found']
      exact above
  once := linked.nodup
  extent p n found := by
    rcases anchored p n found with ⟨-, -, same⟩ | anchored
    · rw [same]
      exact Nat.le_refl _
    · exact Nat.le_of_lt anchored.extent
  covers p c n m found found' member := by
    have covers := (encloses p n found).covers c member
    rwa [span_at_of_eq found'] at covers
  ordered p n found := (encloses p n found).ordered
  anchored p n found := (anchored p n found).imp_left fun unit => ⟨unit.1, unit.2.1⟩

theorem WellFormed.shaped (wf : WellFormed tokens nodes) : Shaped tokens nodes :=
  wf.linked.shaped wf.encloses fun p n found => .inr (wf.anchored p n found)

/-- The node of an empty file covers no token. -/
theorem WellFormed.shaped_empty (wf : WellFormed tokens nodes) :
    Shaped tokens (PhpAnalyser.adopt nodes .compilationUnit .origin []) := by
  have none_yet : Pending 0 nodes 0 0 [] := .nil
  refine (wf.linked.adopt none_yet).shaped (fun p n found => ?_) fun p n found => ?_
  · rcases adopt_cases found with ⟨rfl, rfl⟩ | ⟨old, low, here, same⟩
    · exact ⟨by simp, .nil⟩
    · obtain rfl : n = old := same
      exact (wf.encloses p n here).develops adopt_develops (wf.linked.children_lt here)
  · rcases adopt_cases found with ⟨rfl, rfl⟩ | ⟨old, low, here, same⟩
    · exact .inl ⟨rfl, rfl, rfl⟩
    · obtain rfl : n = old := same
      exact .inr (wf.anchored p n here)

end Finish

end PhpAnalyser
