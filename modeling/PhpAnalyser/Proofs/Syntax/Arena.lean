import PhpAnalyser.Proofs.Lexeme.Lexed
import PhpAnalyser.Syntax.Tree
/-!
The shape of an array of nodes while it is being made: nodes that have a parent hang below it for
good, and nodes that wait for one can still be put below a new node.
-/
namespace PhpAnalyser

structure Anchored (tokens : Array Token) (span : Span) : Prop where
  starts : ∃ t ∈ tokens, t.kind ≠ .closeTag ∧ t.span.start = span.start ∧ t.span.first = span.first
  stops : ∃ t ∈ tokens, t.kind ≠ .closeTag ∧ t.span.stop = span.stop ∧ t.span.last = span.last
  extent : span.start < span.stop

theorem Span.start_merge (a b : Span) : (a.merge b).start = min a.start b.start := by
  simp only [Span.merge]
  split <;> omega

theorem Span.stop_merge (a b : Span) : (a.merge b).stop = max a.stop b.stop := by
  simp only [Span.merge]
  split <;> omega

theorem Anchored.merge {tokens : Array Token} {a b : Span} (first : Anchored tokens a)
    (second : Anchored tokens b) : Anchored tokens (a.merge b) where
  starts := by
    simp only [Span.merge]
    split
    · exact second.starts
    · exact first.starts
  stops := by
    simp only [Span.merge]
    split
    · exact second.stops
    · exact first.stops
  extent := by
    have := first.extent
    rw [Span.start_merge, Span.stop_merge]
    omega

def spanAt (nodes : Array Node) (i : Nat) : Span := (nodes[i]?).elim .origin (·.span)

theorem span_at_of_eq {nodes : Array Node} {i : Nat} {n : Node} (found : nodes[i]? = some n) :
    spanAt nodes i = n.span := by
  simp [spanAt, found]

def Span.Precedes (a b : Span) : Prop := a.start ≤ b.start ∧ a.stop ≤ b.stop

structure Extends (a b : Array Node) : Prop where
  size_le : a.size ≤ b.size
  same : ∀ i, i < a.size → b[i]? = a[i]?

theorem Extends.refl (a : Array Node) : Extends a a := ⟨Nat.le_refl _, fun _ _ => rfl⟩

theorem Extends.trans {a b c : Array Node} (first : Extends a b) (second : Extends b c) :
    Extends a c where
  size_le := Nat.le_trans first.size_le second.size_le
  same i low := (second.same i (Nat.lt_of_lt_of_le low first.size_le)).trans (first.same i low)

theorem Extends.found {a b : Array Node} (extends_ : Extends a b) {i : Nat} {n : Node}
    (found : a[i]? = some n) : b[i]? = some n :=
  (extends_.same i (Array.getElem?_eq_some_iff.mp found).1).trans found

/-- The nodes of `a` are still in `b`, though their parents and comments may have changed. -/
def Develops (a b : Array Node) : Prop :=
  ∀ (i : Nat) (n : Node), a[i]? = some n →
    ∃ n' : Node, b[i]? = some n' ∧ n'.kind = n.kind ∧ n'.span = n.span ∧ n'.children = n.children

theorem Extends.develops {a b : Array Node} (extends_ : Extends a b) : Develops a b :=
  fun _ n found => ⟨n, extends_.found found, rfl, rfl, rfl⟩

theorem Develops.trans {a b c : Array Node} (first : Develops a b) (second : Develops b c) :
    Develops a c := by
  intro i n found
  obtain ⟨n', found', kind, span, children⟩ := first i n found
  obtain ⟨n'', found'', kind', span', children'⟩ := second i n' found'
  exact ⟨n'', found'', kind'.trans kind, span'.trans span, children'.trans children⟩

theorem Develops.span_at {a b : Array Node} (develops : Develops a b) {i : Nat}
    (low : i < a.size) : spanAt b i = spanAt a i := by
  have found := Array.getElem?_eq_getElem low
  obtain ⟨n', found', -, span, -⟩ := develops i _ found
  rw [span_at_of_eq found, span_at_of_eq found', span]

/-- Nodes in their order, made from `floor` on, with spans between `lo` and `hi`, that wait for a
parent. -/
structure Pending (floor : Nat) (nodes : Array Node) (lo hi : Nat) (ids : List Nat) : Prop where
  each : ∀ i ∈ ids, ∃ n, nodes[i]? = some n ∧ floor ≤ i ∧ n.parent = none ∧
    lo ≤ n.span.start ∧ n.span.start < n.span.stop ∧ n.span.stop ≤ hi
  ordered : ids.Pairwise fun i j => i < j ∧ (spanAt nodes i).Precedes (spanAt nodes j)

namespace Pending

variable {floor lo hi : Nat} {nodes : Array Node} {ids : List Nat}

theorem nil : Pending floor nodes lo hi [] := ⟨by simp, .nil⟩

theorem single {i : Nat} {n : Node} (found : nodes[i]? = some n) (made : floor ≤ i)
    (free : n.parent = none) (low : lo ≤ n.span.start) (extent : n.span.start < n.span.stop)
    (high : n.span.stop ≤ hi) : Pending floor nodes lo hi [i] where
  each j member := by
    rw [List.mem_singleton] at member
    subst member
    exact ⟨n, found, made, free, low, extent, high⟩
  ordered := List.pairwise_singleton ..

theorem mono {lo' hi' : Nat} (pending : Pending floor nodes lo hi ids) (low : lo' ≤ lo)
    (high : hi ≤ hi') : Pending floor nodes lo' hi' ids where
  each i member := by
    obtain ⟨n, found, made, free, lo_le, extent, le_hi⟩ := pending.each i member
    exact ⟨n, found, made, free, Nat.le_trans low lo_le, extent, Nat.le_trans le_hi high⟩
  ordered := pending.ordered

theorem from_floor {floor' : Nat} (pending : Pending floor nodes lo hi ids)
    (lower : floor' ≤ floor) : Pending floor' nodes lo hi ids where
  each i member := by
    obtain ⟨n, found, made, rest⟩ := pending.each i member
    exact ⟨n, found, Nat.le_trans lower made, rest⟩
  ordered := pending.ordered

theorem from_first {i : Nat} {rest : List Nat} (pending : Pending floor nodes lo hi (i :: rest)) :
    Pending floor nodes (spanAt nodes i).start hi (i :: rest) where
  each j member := by
    obtain ⟨n, found, made, free, low, extent, high⟩ := pending.each j member
    refine ⟨n, found, made, free, ?_, extent, high⟩
    rw [← span_at_of_eq found]
    rcases List.mem_cons.mp member with rfl | later
    · exact Nat.le_refl _
    · exact (List.rel_of_pairwise_cons pending.ordered later).2.1
  ordered := pending.ordered

theorem to_last {i : Nat} (pending : Pending floor nodes lo hi ids) (last : ids.getLast? = some i) :
    Pending floor nodes lo (spanAt nodes i).stop ids where
  each j member := by
    obtain ⟨n, found, made, free, low, extent, high⟩ := pending.each j member
    refine ⟨n, found, made, free, low, extent, ?_⟩
    rw [← span_at_of_eq found]
    obtain ⟨before, rfl⟩ := List.getLast?_eq_some_iff.mp last
    rcases List.mem_append.mp member with earlier | same
    · obtain ⟨-, -, ordered⟩ := List.pairwise_append.mp pending.ordered
      exact (ordered j earlier i (List.mem_singleton.mpr rfl)).2.2
    · exact Nat.le_of_eq (by rw [List.mem_singleton.mp same])
  ordered := pending.ordered

theorem lt_size (pending : Pending floor nodes lo hi ids) {i : Nat} (member : i ∈ ids) :
    i < nodes.size := by
  obtain ⟨n, found, -⟩ := pending.each i member
  exact (Array.getElem?_eq_some_iff.mp found).1

theorem nodup (pending : Pending floor nodes lo hi ids) : ids.Nodup :=
  pending.ordered.imp fun before => Nat.ne_of_lt before.1

theorem keep {nodes' : Array Node} (pending : Pending floor nodes lo hi ids)
    (extends_ : Extends nodes nodes') : Pending floor nodes' lo hi ids where
  each i member := by
    obtain ⟨n, found, rest⟩ := pending.each i member
    exact ⟨n, extends_.found found, rest⟩
  ordered := by
    refine pending.ordered.imp_of_mem fun {i j} first second before => ?_
    have develops := extends_.develops
    rwa [develops.span_at (pending.lt_size first), develops.span_at (pending.lt_size second)]

/-- Nodes made later, and behind the earlier ones, can be put behind them. -/
theorem append {stop start floor' : Nat} {later : List Nat} {nodes' : Array Node}
    (first : Pending floor nodes lo stop ids) (extends_ : Extends nodes nodes')
    (second : Pending floor' nodes' start hi later) (made : nodes.size ≤ floor')
    (floor_le : floor ≤ floor') (low : lo ≤ start) (between : stop ≤ start) (high : stop ≤ hi) :
    Pending floor nodes' lo hi (ids ++ later) := by
  have kept := first.keep extends_
  constructor
  · intro i member
    rcases List.mem_append.mp member with member | member
    · exact (kept.mono (Nat.le_refl _) high).each i member
    · exact ((second.from_floor floor_le).mono low (Nat.le_refl _)).each i member
  · refine List.pairwise_append.mpr ⟨kept.ordered, second.ordered, fun i left j right => ?_⟩
    have before := first.lt_size left
    obtain ⟨n, found, -, -, -, extent, stop⟩ := kept.each i left
    obtain ⟨m, found', from_, -, start, extent', -⟩ := second.each j right
    rw [Span.Precedes, span_at_of_eq found, span_at_of_eq found']
    omega

/-- A node made later can be put behind nodes that start no later and end no later. -/
theorem append_over {i : Nat} {n : Node} {nodes' : Array Node}
    (first : Pending floor nodes lo n.span.stop ids) (extends_ : Extends nodes nodes')
    (found : nodes'[i]? = some n) (made : nodes.size ≤ i) (floor_le : floor ≤ i)
    (free : n.parent = none) (low : lo ≤ n.span.start) (extent : n.span.start < n.span.stop)
    (shared : ∀ j ∈ ids, (spanAt nodes j).start ≤ n.span.start) :
    Pending floor nodes' lo n.span.stop (ids ++ [i]) := by
  have kept := first.keep extends_
  have last := single found floor_le free low extent (Nat.le_refl _)
  constructor
  · intro j member
    rcases List.mem_append.mp member with member | member
    · exact kept.each j member
    · exact last.each j member
  · refine List.pairwise_append.mpr ⟨kept.ordered, last.ordered, fun j left k right => ?_⟩
    have before := first.lt_size left
    have start_le := shared j left
    obtain ⟨m, found', -, -, -, -, stop_le⟩ := kept.each j left
    rw [← extends_.develops.span_at before, span_at_of_eq found'] at start_le
    rw [List.mem_singleton.mp right, Span.Precedes, span_at_of_eq found, span_at_of_eq found']
    omega

end Pending

theorem map_modify {α β : Type} {entries : Array α} {f : α → α} {g : α → β}
    (same : ∀ x, g (f x) = g x) (k : Nat) :
    (entries.modify k f).toList.map g = entries.toList.map g := by
  refine List.ext_getElem? fun i => ?_
  simp only [List.getElem?_map, Array.getElem?_toList, Array.getElem?_modify]
  split
  · rw [Option.map_map]
    exact congrArg (Option.map · _) (funext same)
  · rfl

section Adopt

variable {nodes : Array Node} {kind : NodeKind} {span : Span} {ids : List Nat}

theorem size_link (ids : List Nat) (p : Nat) (nodes : Array Node) :
    (ids.foldl (setParent p) nodes).size = nodes.size := by
  induction ids generalizing nodes with
  | nil => rfl
  | cons first rest ih =>
    rw [List.foldl_cons, ih]
    exact Array.size_modify ..

theorem link_found (ids : List Nat) (p : Nat) (nodes : Array Node) (i : Nat) :
    (ids.foldl (setParent p) nodes)[i]? =
      (nodes[i]?).map fun n => if i ∈ ids then { n with parent := some p } else n := by
  induction ids generalizing nodes with
  | nil => simp
  | cons first rest ih =>
    rw [List.foldl_cons, ih, setParent, Array.getElem?_modify]
    by_cases here : first = i
    · subst here
      cases nodes[first]? <;> simp
    · have other : i ≠ first := fun h => here h.symm
      simp [here, other]

theorem size_adopt : (adopt nodes kind span ids).size = nodes.size + 1 := by
  rw [adopt, Array.size_push, size_link]

theorem adopt_new :
    (adopt nodes kind span ids)[nodes.size]? = some ⟨kind, span, none, ids, none, []⟩ := by
  rw [adopt, Array.getElem?_push, size_link, if_pos rfl]

theorem adopt_old {i : Nat} (low : i < nodes.size) :
    (adopt nodes kind span ids)[i]? =
      (nodes[i]?).map fun n => if i ∈ ids then { n with parent := some nodes.size } else n := by
  have low' : i < (ids.foldl (setParent nodes.size) nodes).size := by rwa [size_link]
  rw [adopt, Array.getElem?_push_lt low', ← Array.getElem?_eq_getElem, link_found]

theorem adopt_develops : Develops nodes (adopt nodes kind span ids) := by
  intro i n found
  have low := (Array.getElem?_eq_some_iff.mp found).1
  rw [adopt_old low, found]
  refine ⟨_, rfl, ?_⟩
  split <;> exact ⟨rfl, rfl, rfl⟩

/-- What does not depend on the parent of a node is kept. -/
theorem map_adopt {α : Type} {g : Node → α} (same : ∀ n p, g { n with parent := some p } = g n) :
    (adopt nodes kind span ids).toList.map g =
      nodes.toList.map g ++ [g ⟨kind, span, none, ids, none, []⟩] := by
  have link (nodes : Array Node) (p : Nat) :
      (ids.foldl (setParent p) nodes).toList.map g = nodes.toList.map g := by
    induction ids generalizing nodes with
    | nil => rfl
    | cons first rest ih => rw [List.foldl_cons, ih, setParent, map_modify fun n => same n p]
  rw [adopt, Array.toList_push, List.map_append, link]
  rfl

/-- A node of the new array is the new one, a child of it, or as it was. -/
theorem adopt_cases {i : Nat} {n : Node} (found : (adopt nodes kind span ids)[i]? = some n) :
    (i = nodes.size ∧ n = ⟨kind, span, none, ids, none, []⟩) ∨
      ∃ old, i < nodes.size ∧ nodes[i]? = some old ∧
        n = if i ∈ ids then { old with parent := some nodes.size } else old := by
  have bound := (Array.getElem?_eq_some_iff.mp found).1
  rw [size_adopt] at bound
  rcases Nat.lt_succ_iff_lt_or_eq.mp bound with low | rfl
  · right
    rw [adopt_old low] at found
    obtain ⟨old, here, same⟩ := Option.map_eq_some_iff.mp found
    exact ⟨old, low, here, same.symm⟩
  · left
    rw [adopt_new] at found
    exact ⟨rfl, (Option.some.inj found).symm⟩

end Adopt

/-- Children and parents agree, and children come first. -/
structure Linked (nodes : Array Node) : Prop where
  below : ∀ (p : Nat) (n : Node), nodes[p]? = some n → ∀ c ∈ n.children, c < p
  nodup : ∀ (p : Nat) (n : Node), nodes[p]? = some n → n.children.Nodup
  parent : ∀ (c p : Nat) (m : Node), nodes[c]? = some m → m.parent = some p →
    ∃ n, nodes[p]? = some n ∧ c ∈ n.children
  child : ∀ (p c : Nat) (n : Node), nodes[p]? = some n → c ∈ n.children →
    ∃ m, nodes[c]? = some m ∧ m.parent = some p

structure Encloses (nodes : Array Node) (span : Span) (ids : List Nat) : Prop where
  covers : ∀ c ∈ ids, span.start ≤ (spanAt nodes c).start ∧ (spanAt nodes c).stop ≤ span.stop
  ordered : ids.Pairwise fun c d => (spanAt nodes c).Precedes (spanAt nodes d)

structure WellFormed (tokens : Array Token) (nodes : Array Node) : Prop where
  linked : Linked nodes
  anchored : ∀ (p : Nat) (n : Node), nodes[p]? = some n → Anchored tokens n.span
  encloses : ∀ (p : Nat) (n : Node), nodes[p]? = some n → Encloses nodes n.span n.children

theorem Encloses.develops {nodes nodes' : Array Node} {span : Span} {ids : List Nat}
    (encloses : Encloses nodes span ids) (develops : Develops nodes nodes')
    (low : ∀ i ∈ ids, i < nodes.size) : Encloses nodes' span ids where
  covers c member := by
    rw [develops.span_at (low c member)]
    exact encloses.covers c member
  ordered := by
    refine encloses.ordered.imp_of_mem fun {c d} first second before => ?_
    rwa [develops.span_at (low c first), develops.span_at (low d second)]

theorem Pending.encloses {floor lo hi : Nat} {nodes : Array Node} {ids : List Nat} {span : Span}
    (pending : Pending floor nodes lo hi ids) (start_le : span.start ≤ lo)
    (le_stop : hi ≤ span.stop) : Encloses nodes span ids where
  covers c member := by
    obtain ⟨n, found, -, -, low, -, high⟩ := pending.each c member
    rw [span_at_of_eq found]
    omega
  ordered := pending.ordered.imp fun before => before.2

section Push

variable {tokens : Array Token} {nodes : Array Node} {kind : NodeKind} {span : Span}
  {floor lo hi : Nat} {ids : List Nat}

theorem Linked.children_lt (linked : Linked nodes) {p : Nat} {n : Node}
    (found : nodes[p]? = some n) : ∀ c ∈ n.children, c < nodes.size := by
  intro c member
  obtain ⟨m, there, -⟩ := linked.child p c n found member
  exact (Array.getElem?_eq_some_iff.mp there).1

theorem Linked.adopt (linked : Linked nodes) (pending : Pending floor nodes lo hi ids) :
    Linked (adopt nodes kind span ids) where
  below p n found c member := by
    rcases adopt_cases found with ⟨rfl, rfl⟩ | ⟨old, low, here, rfl⟩
    · exact pending.lt_size member
    · exact linked.below p old here c (by split at member <;> exact member)
  nodup p n found := by
    rcases adopt_cases found with ⟨rfl, rfl⟩ | ⟨old, low, here, rfl⟩
    · exact pending.nodup
    · have := linked.nodup p old here
      split <;> exact this
  parent c p m found above := by
    rcases adopt_cases found with ⟨rfl, rfl⟩ | ⟨old, low, here, rfl⟩
    · cases above
    · by_cases taken : c ∈ ids
      · rw [if_pos taken] at above
        have at_end : nodes.size = p := Option.some.inj above
        rw [← at_end]
        exact ⟨_, adopt_new, taken⟩
      · rw [if_neg taken] at above
        obtain ⟨n, there, inside⟩ := linked.parent c p old here above
        obtain ⟨n', there', -, -, children⟩ := adopt_develops p n there
        exact ⟨n', there', children ▸ inside⟩
  child p c n found member := by
    rcases adopt_cases found with ⟨rfl, rfl⟩ | ⟨old, low, here, rfl⟩
    · obtain ⟨m, there, -⟩ := pending.each c member
      refine ⟨{ m with parent := some nodes.size }, ?_, rfl⟩
      rw [adopt_old (pending.lt_size member), there, Option.map_some, if_pos]
      exact member
    · have member : c ∈ old.children := by split at member <;> exact member
      obtain ⟨m, there, above⟩ := linked.child p c old here member
      have notTaken : c ∉ ids := by
        intro taken
        obtain ⟨m', there', -, free, -⟩ := pending.each c taken
        rw [there] at there'
        rw [Option.some.inj there', free] at above
        cases above
      refine ⟨m, ?_, above⟩
      rw [adopt_old (linked.children_lt here c member), there, Option.map_some, if_neg notTaken]

theorem WellFormed.adopt (wf : WellFormed tokens nodes) (pending : Pending floor nodes lo hi ids)
    (anchored : Anchored tokens span) (start_le : span.start ≤ lo) (le_stop : hi ≤ span.stop) :
    WellFormed tokens (adopt nodes kind span ids) where
  linked := wf.linked.adopt pending
  anchored p n found := by
    rcases adopt_cases found with ⟨rfl, rfl⟩ | ⟨old, low, here, rfl⟩
    · exact anchored
    · have := wf.anchored p old here
      split <;> exact this
  encloses p n found := by
    rcases adopt_cases found with ⟨rfl, rfl⟩ | ⟨old, low, here, rfl⟩
    · exact (pending.encloses start_le le_stop).develops adopt_develops fun i => pending.lt_size
    · have develops : Develops nodes (PhpAnalyser.adopt nodes kind span ids) := adopt_develops
      have := (wf.encloses p old here).develops develops (wf.linked.children_lt here)
      split <;> exact this

/-- Nodes that were there before the children are not touched. -/
theorem extends_adopt {before : Array Node} (extends_ : Extends before nodes)
    (made : ∀ i ∈ ids, before.size ≤ i) : Extends before (adopt nodes kind span ids) where
  size_le := by
    rw [size_adopt]
    exact Nat.le_succ_of_le extends_.size_le
  same i low := by
    have notTaken : i ∉ ids := fun taken => Nat.not_lt_of_le (made i taken) low
    rw [adopt_old (Nat.lt_of_lt_of_le low extends_.size_le), ← extends_.same i low]
    cases nodes[i]? <;> simp [notTaken]

theorem pending_adopt (extent : span.start < span.stop) (made : floor ≤ nodes.size) :
    Pending floor (adopt nodes kind span ids) span.start span.stop [nodes.size] :=
  .single adopt_new made rfl (Nat.le_refl _) extent (Nat.le_refl _)

end Push

section Annotate

variable {tokens : Array Token} {nodes : Array Node} {k : Nat} {doc : Option String}

theorem annotate_found (i : Nat) :
    (annotate nodes k doc)[i]? =
      (nodes[i]?).map fun n => if k = i then { n with docComment := doc } else n := by
  rw [annotate, Array.getElem?_modify]
  split <;> cases nodes[i]? <;> rfl

theorem annotate_develops : Develops nodes (annotate nodes k doc) := by
  intro i n found
  rw [annotate_found, found]
  refine ⟨_, rfl, ?_⟩
  split <;> exact ⟨rfl, rfl, rfl⟩

/-- Only the comment of a node can differ. -/
theorem annotate_cases {i : Nat} {n : Node} (found : (annotate nodes k doc)[i]? = some n) :
    ∃ old : Node, nodes[i]? = some old ∧ n.kind = old.kind ∧ n.span = old.span ∧
      n.parent = old.parent ∧ n.children = old.children := by
  rw [annotate_found] at found
  obtain ⟨old, here, rfl⟩ := Option.map_eq_some_iff.mp found
  refine ⟨old, here, ?_⟩
  split <;> exact ⟨rfl, rfl, rfl, rfl⟩

theorem annotate_some {i : Nat} {n : Node} (found : nodes[i]? = some n) :
    ∃ new : Node, (annotate nodes k doc)[i]? = some new ∧ new.kind = n.kind ∧ new.span = n.span ∧
      new.parent = n.parent ∧ new.children = n.children := by
  refine ⟨_, by rw [annotate_found, found]; rfl, ?_⟩
  split <;> exact ⟨rfl, rfl, rfl, rfl⟩

theorem Linked.annotate (linked : Linked nodes) : Linked (annotate nodes k doc) where
  below p n found c member := by
    obtain ⟨old, here, -, -, -, children⟩ := annotate_cases found
    exact linked.below p old here c (children ▸ member)
  nodup p n found := by
    obtain ⟨old, here, -, -, -, children⟩ := annotate_cases found
    exact children ▸ linked.nodup p old here
  parent c p m found above := by
    obtain ⟨old, here, -, -, same, -⟩ := annotate_cases found
    obtain ⟨n, there, inside⟩ := linked.parent c p old here (same ▸ above)
    obtain ⟨new, there', -, -, -, children⟩ := annotate_some there
    exact ⟨new, there', children ▸ inside⟩
  child p c n found member := by
    obtain ⟨old, here, -, -, -, children⟩ := annotate_cases found
    obtain ⟨m, there, above⟩ := linked.child p c old here (children ▸ member)
    obtain ⟨new, there', -, -, same, -⟩ := annotate_some there
    exact ⟨new, there', same.trans above⟩

theorem WellFormed.annotate (wf : WellFormed tokens nodes) :
    WellFormed tokens (annotate nodes k doc) where
  linked := wf.linked.annotate
  anchored p n found := by
    obtain ⟨old, here, -, span, -⟩ := annotate_cases found
    exact span ▸ wf.anchored p old here
  encloses p n found := by
    obtain ⟨old, here, -, span, -, children⟩ := annotate_cases found
    rw [span, children]
    exact (wf.encloses p old here).develops annotate_develops (wf.linked.children_lt here)

theorem extends_annotate {before : Array Node} (extends_ : Extends before nodes)
    (made : before.size ≤ k) : Extends before (annotate nodes k doc) where
  size_le := by
    rw [PhpAnalyser.annotate, Array.size_modify]
    exact extends_.size_le
  same i low := by
    have other : k ≠ i := by omega
    rw [annotate_found, ← extends_.same i low]
    cases nodes[i]? <;> simp [other]

theorem Pending.annotate {floor lo hi : Nat} {ids : List Nat}
    (pending : Pending floor nodes lo hi ids) : Pending floor (annotate nodes k doc) lo hi ids where
  each i member := by
    obtain ⟨n, found, made, free, bounds⟩ := pending.each i member
    obtain ⟨new, found', -, span, parent, -⟩ := annotate_some found
    exact ⟨new, found', made, parent.trans free, by rw [span]; exact bounds⟩
  ordered := by
    refine pending.ordered.imp_of_mem fun {i j} first second before => ?_
    rwa [annotate_develops.span_at (pending.lt_size first),
      annotate_develops.span_at (pending.lt_size second)]

end Annotate

end PhpAnalyser
