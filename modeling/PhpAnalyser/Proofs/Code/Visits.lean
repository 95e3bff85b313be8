import PhpAnalyser.Proofs.Code.Turns
/-!
What a composition does, in turns. It visits what a type gets to: whatever gets its result in it is
reached along traits whose tables are seen.
-/
namespace PhpAnalyser

open Relation (TransGen ReflTransGen)

/-- Where each type is listed once, those in front of one are listed up to it. -/
theorem takeWhile_front {before later : List Nat} {id : Nat}
    (once : (before ++ id :: later).Nodup) :
    (before ++ id :: later).takeWhile (· ≠ id) = before := by
  have apart := (List.nodup_cons.mp (List.nodup_middle.mp once)).1
  rw [List.mem_append, not_or] at apart
  rw [List.takeWhile_append_of_pos, List.takeWhile_cons_of_neg, List.append_nil]
  · simp
  · intro other listed
    simpa using fun same : other = id => apart.1 (same ▸ listed)

/-- A type sees the table of a trait that it uses if it comes behind the trait in an order. -/
def CodeModel.Sees (m : CodeModel) (order : List Nat) (d t : Nat) : Prop :=
  m.UsesTrait d t ∧ ∃ before later, order = before ++ d :: later ∧ t ∈ before

/-- An order in which the types can get their tables. A type comes behind the traits that it uses,
but for those that get back to it, and the first type that gets to another one gets there along
traits that it sees. -/
structure CodeModel.Arranged (m : CodeModel) (order : List Nat) : Prop where
  once : order.Nodup
  all : ∀ id, id ∈ order ↔ id < m.types.size
  around : ∀ d t, m.UsesTrait d t → ¬m.Sees order d t → ReflTransGen m.UsesTrait t d
  first : ∀ d < m.types.size, ∀ t, ReflTransGen m.UsesTrait d t →
    (∀ earlier < d, ¬ReflTransGen m.UsesTrait earlier t) → ReflTransGen (m.Sees order) d t

/-- Of a trait that does not get back to it, a type comes behind in any such order. -/
theorem CodeModel.Arranged.sees {m : CodeModel} {order : List Nat} (arranged : m.Arranged order)
    {d t : Nat} (uses : m.UsesTrait d t) (apart : ¬ReflTransGen m.UsesTrait t d) :
    m.Sees order d t := by
  by_contra unseen
  exact apart (arranged.around d t uses unseen)

theorem CodeModel.path_of_sees {m : CodeModel} {order : List Nat} {d t : Nat}
    (path : ReflTransGen (m.Sees order) d t) : ReflTransGen m.UsesTrait d t :=
  ReflTransGen.mono (fun _ _ sees => sees.1) _ _ path

namespace Composing

def Fixed (s : Composing) (id : Nat) : Prop := id ∈ s.active ∨ s.resultOf id ≠ .pending

def idle (s : Composing) : Composing := { s with active := [] }

def order (turns : List Turn) : List Nat := turns.map (·.type.id)

def Closed (m : CodeModel) (s : Composing) : Prop :=
  ∀ d t, m.UsesTrait d t → s.resultOf d ≠ .pending → Fixed s t

/-- More turns that lead from a state to another one. The types that get their results in them are
those that some types get to along traits that are seen. -/
structure Visits (m : CodeModel) (s : Composing) (turns : List Turn) (roots : List Nat)
    (s' : Composing) (turns' : List Turn) : Prop where
  run : Turns m turns' s'.idle
  more : turns <+: turns'
  closed : Closed m s'
  reached : ∀ i, s.resultOf i = .pending → s'.resultOf i ≠ .pending →
    ∃ root ∈ roots, ReflTransGen (m.Sees (order turns')) root i

variable {m : CodeModel} {s s' s'' : Composing} {id : Nat} {table : Option MethodTable}
  {offers offers' : Offers} {used : List (Nat × Nat)}

theorem shown_of_result {i : Nat} (same : s'.resultOf i = s.resultOf i) :
    shown m s' i = shown m s i := by
  rw [shown, shown, same]

/-- What a type offers stays, once it is fixed. -/
theorem Gathers.fixed (gathers : Gathers m s offers used offers' s') {i : Nat} (fixed : Fixed s i) :
    s'.resultOf i = s.resultOf i ∧ Fixed s' i := by
  by_cases pending : s.resultOf i = .pending
  · have working : i ∈ s.active := fixed.resolve_right (not_not_intro pending)
    rw [gathers.waits working pending, pending]
    exact ⟨rfl, .inl (gathers.active ▸ working)⟩
  · have same := gathers.keeps pending
    exact ⟨same, .inr (same.symm ▸ pending)⟩

/-- The composition of a type gives what the type offers from then on. -/
theorem Runs.fixes (runs : Runs m s id table s') (known : (m.type? id).isSome)
    (inside : id < s.results.size) :
    shown m s' id = table.getD (fallback m id) ∧ Fixed s' id := by
  rw [shown]
  cases runs with
  | composed known => exact ⟨by rw [known]; rfl, .inr (by simp [known])⟩
  | failed known => exact ⟨by rw [known]; rfl, .inr (by simp [known])⟩
  | unknown _ missing => simp [missing] at known
  | again pending found active =>
    refine ⟨?_, .inl active⟩
    rw [pending, fallback, found]
    rfl
  | settles _ _ _ gathers _ =>
    have result := (gathers.size ▸ inside : id < _)
    refine ⟨?_, .inr ?_⟩ <;> simp [close_result, result, Composition.table?]
  | collides _ _ _ gathers _ =>
    have result := (gathers.size ▸ inside : id < _)
    refine ⟨?_, .inr ?_⟩ <;> simp [fail_result, result, Composition.table?]

/-- All offers come from what the used traits offer in the end. -/
theorem Gathers.offers_eq (numbered : Numbered TypeDecl.id m.types) {s s' : Composing}
    {offers offers' : Offers} {used : List (Nat × Nat)} :
    Gathers m s offers used offers' s' → s.results.size = m.types.size →
      (∀ u ∈ used.map (·.1), (m.type? u).isSome) →
      offers' = used.foldl (fun offers u => offers.addTable u.1 u.2 (shown m s' u.1)) offers
  | .nil, _, _ => rfl
  | .cons head tail, size, known => by
    have here := known _ List.mem_cons_self
    have inside := (Array.getElem?_eq_some_iff.mp (Option.eq_some_of_isSome here)).1
    obtain ⟨first, fixed⟩ := head.fixes here (size.symm ▸ inside)
    have last := (shown_of_result (tail.fixed fixed).1).trans first
    have rest := tail.offers_eq numbered (head.size.trans size) fun v later =>
      known v (List.mem_cons_of_mem _ later)
    rw [rest, List.foldl_cons, last]

/-- A type in work still waits when the used traits are gathered. -/
theorem Gathers.entered (gathers : Gathers m (s.enter id) [] used offers s')
    (pending : s.resultOf id = .pending) : s'.resultOf id = .pending :=
  gathers.waits List.mem_cons_self pending

/-- What is above a type is above the traits that it uses. -/
theorem above_used {active : List Nat} {id : Nat} {t : TypeDecl} (found : m.type? id = some t)
    (above : ∀ a ∈ active, TransGen m.UsesTrait a id) :
    ∀ u ∈ (m.usedTraits t).map (·.1), ∀ a ∈ id :: active, TransGen m.UsesTrait a u := by
  intro u used a working
  have uses : m.UsesTrait id u := ⟨t, found, used⟩
  rcases List.mem_cons.mp working with rfl | earlier
  · exact .single uses
  · exact .tail (above a earlier) uses

theorem used_known (numbered : Numbered TypeDecl.id m.types) (t : TypeDecl) :
    ∀ u ∈ (m.usedTraits t).map (·.1), (m.type? u).isSome := by
  intro u used
  obtain ⟨decl, found, -⟩ := CodeModel.trait_of_used numbered used
  exact Option.isSome_of_eq_some found

/-- A used trait is in work or has its result once it was gathered. -/
theorem Gathers.all_fixed {s s' : Composing} {offers offers' : Offers} {used : List (Nat × Nat)} :
    Gathers m s offers used offers' s' → s.results.size = m.types.size →
      (∀ u ∈ used.map (·.1), (m.type? u).isSome) → ∀ u ∈ used.map (·.1), Fixed s' u
  | .nil, _, _, u, listed => by cases listed
  | .cons head tail, size, known, u, listed => by
    have here := known _ List.mem_cons_self
    have inside := (Array.getElem?_eq_some_iff.mp (Option.eq_some_of_isSome here)).1
    obtain ⟨-, fixed⟩ := head.fixes here (size.symm ▸ inside)
    rcases List.mem_cons.mp listed with rfl | later
    · exact (tail.fixed fixed).2
    · exact tail.all_fixed (head.size.trans size) (fun v member =>
        known v (List.mem_cons_of_mem _ member)) u later

/-- Once its traits are gathered, a type can have its turn. -/
theorem Gathers.due (numbered : Numbered TypeDecl.id m.types) {t : TypeDecl} {offers : Offers}
    (gathers : Gathers m (s.enter id) [] (m.usedTraits t) offers s')
    (size : s.results.size = m.types.size) (waits : s.resultOf id = .pending)
    (known : m.type? id = some t) (above : ∀ a ∈ s.active, TransGen m.UsesTrait a id) :
    Turn.Due m ⟨s'.idle, t⟩ ∧ (Turn.mk s'.idle t).verdict m = m.tableOf t offers := by
  have number := numbered id t known
  subst number
  refine ⟨⟨gathers.entered waits, known, fun u used waiting => ?_⟩, ?_⟩
  · have fixed := gathers.all_fixed size (used_known numbered t) u used
    have working := fixed.resolve_right (not_not_intro waiting)
    rw [gathers.active] at working
    rcases List.mem_cons.mp working with rfl | earlier
    · exact .refl
    · exact (above u earlier).to_reflTransGen
  · rw [gathers.offers_eq numbered size (used_known numbered t)]
    rfl

section Visits

variable {turns turns' turns'' : List Turn} {roots roots' : List Nat}

theorem sees_later (more : turns <+: turns') {d t : Nat} (sees : m.Sees (order turns) d t) :
    m.Sees (order turns') d t := by
  obtain ⟨uses, before, later, split, listed⟩ := sees
  obtain ⟨new, rfl⟩ := more
  refine ⟨uses, before, later ++ order new, ?_, listed⟩
  rw [order, List.map_append, ← order, split, List.append_assoc, List.cons_append]
  rfl

theorem path_later (more : turns <+: turns') {d t : Nat}
    (path : ReflTransGen (m.Sees (order turns)) d t) : ReflTransGen (m.Sees (order turns')) d t :=
  ReflTransGen.mono (fun _ _ => sees_later more) _ _ path

theorem Closed.enter (closed : Closed m s) (id : Nat) : Closed m (s.enter id) :=
  fun d t uses known => (closed d t uses known).imp_left (List.mem_cons_of_mem _)

/-- Where no type is in work, what a type with a result gets to has results too. -/
theorem Closed.reached (closed : Closed m s) (unworked : s.active = []) {d t : Nat}
    (path : ReflTransGen m.UsesTrait d t) (known : s.resultOf d ≠ .pending) :
    s.resultOf t ≠ .pending := by
  induction path with
  | refl => exact known
  | tail _ uses ih => exact (closed _ _ uses ih).resolve_left (by simp [unworked])

theorem Visits.none (run : Turns m turns s.idle) (closed : Closed m s) :
    Visits m s turns roots s turns :=
  ⟨run, List.prefix_rfl, closed, fun _ waits known => absurd waits known⟩

theorem Visits.trans (first : Visits m s turns roots s' turns')
    (second : Visits m s' turns' roots' s'' turns'') :
    Visits m s turns (roots ++ roots') s'' turns'' where
  run := second.run
  more := first.more.trans second.more
  closed := second.closed
  reached i waits known := by
    by_cases early : s'.resultOf i = .pending
    · obtain ⟨root, listed, path⟩ := second.reached i early known
      exact ⟨root, List.mem_append_right _ listed, path⟩
    · obtain ⟨root, listed, path⟩ := first.reached i waits early
      exact ⟨root, List.mem_append_left _ listed, path_later second.more path⟩

/-- Those that are gathered and then the type itself are visited. -/
theorem Visits.then (numbered : Numbered TypeDecl.id m.types) {t : TypeDecl}
    (inner : Visits m (s.enter id) turns ((m.usedTraits t).map (·.1)) s' turns')
    (due : Turn.Due m ⟨s'.idle, t⟩) (known : m.type? id = some t)
    (fixed : ∀ u ∈ (m.usedTraits t).map (·.1), Fixed s' u) (active : s'.active = id :: s.active)
    (ends : s''.idle = (Turn.mk s'.idle t).after m) (left : s''.active = s.active) :
    Visits m s turns [id] s'' (turns' ++ [⟨s'.idle, t⟩]) := by
  have number := numbered id t known
  have inside : (Turn.mk s'.idle t).type.id < (Turn.mk s'.idle t).state.results.size :=
    Turns.inside inner.run due
  have result (i : Nat) : s''.resultOf i ≠ .pending ↔ i = id ∨ s'.resultOf i ≠ .pending := by
    have after := Turn.after_known (m := m) inside i
    rwa [← ends, number] at after
  have more : turns' <+: turns' ++ [⟨s'.idle, t⟩] := List.prefix_append _ _
  constructor
  case run => exact ends ▸ .next inner.run due
  case more => exact inner.more.trans more
  case closed =>
    intro d u uses known'
    have before : Fixed s' u := by
      rcases (result d).mp known' with rfl | earlier
      · obtain ⟨decl, found, used⟩ := uses
        cases known.symm.trans found
        exact fixed u used
      · exact inner.closed d u uses earlier
    rcases before with working | earlier
    · rw [active] at working
      rcases List.mem_cons.mp working with here | above
      · exact .inr ((result u).mpr (.inl here))
      · exact .inl (left ▸ above)
    · exact .inr ((result u).mpr (.inr earlier))
  case reached =>
    intro i waits known'
    refine ⟨id, List.mem_singleton_self id, ?_⟩
    rcases (result i).mp known' with rfl | earlier
    · exact .refl
    obtain ⟨u, used, path⟩ := inner.reached i waits earlier
    -- The first trait on the path has had its turn, as the type itself or as one that sees another.
    have before : u ∈ order turns' := by
      rcases path.cases_head with rfl | ⟨v, ⟨-, front, later, split, -⟩, -⟩
      · exact (inner.run.listed _).mp earlier
      · rw [split]
        exact List.mem_append_right _ List.mem_cons_self
    have sees : m.Sees (order (turns' ++ [⟨s'.idle, t⟩])) id u := by
      refine ⟨⟨t, known, used⟩, order turns', [], ?_, before⟩
      rw [order, List.map_append, List.map_singleton, number]
      rfl
    exact .head sees (path_later more path)

end Visits

-- The types in work get to the type that is composed, so that a used trait which waits in the turn
-- of the type gets to it too.
mutual

/-- Whatever a composition does, it does in turns, and it visits what its type gets to. -/
theorem Runs.visits (numbered : Numbered TypeDecl.id m.types) {s s' : Composing} {id : Nat}
    {table : Option MethodTable} {turns : List Turn} :
    Runs m s id table s' → (∀ a ∈ s.active, TransGen m.UsesTrait a id) → Turns m turns s.idle →
      Closed m s → ∃ turns', Visits m s turns [id] s' turns'
  | .composed _, _, run, closed | .failed _, _, run, closed | .unknown .., _, run, closed
  | .again .., _, run, closed => ⟨_, .none run closed⟩
  | .settles waits known fresh gathers ok, above, run, closed => by
    obtain ⟨more, inner⟩ := gathers.visits numbered (above_used known above) run (closed.enter _)
    obtain ⟨due, verdict⟩ := gathers.due numbered run.size waits known above
    refine ⟨_, inner.then numbered due known
      (gathers.all_fixed run.size (used_known numbered _)) gathers.active ?_
      (Runs.active (.settles waits known fresh gathers ok))⟩
    rw [Turn.after, verdict, ok, numbered _ _ known]
    rfl
  | .collides waits known fresh gathers error, above, run, closed => by
    obtain ⟨more, inner⟩ := gathers.visits numbered (above_used known above) run (closed.enter _)
    obtain ⟨due, verdict⟩ := gathers.due numbered run.size waits known above
    refine ⟨_, inner.then numbered due known
      (gathers.all_fixed run.size (used_known numbered _)) gathers.active ?_
      (Runs.active (.collides waits known fresh gathers error))⟩
    rw [Turn.after, verdict, error, numbered _ _ known]
    rfl

theorem Gathers.visits (numbered : Numbered TypeDecl.id m.types) {s s' : Composing}
    {offers offers' : Offers} {used : List (Nat × Nat)} {turns : List Turn} :
    Gathers m s offers used offers' s' →
      (∀ u ∈ used.map (·.1), ∀ a ∈ s.active, TransGen m.UsesTrait a u) → Turns m turns s.idle →
      Closed m s → ∃ turns', Visits m s turns (used.map (·.1)) s' turns'
  | .nil, _, run, closed => ⟨_, .none run closed⟩
  | .cons head tail, above, run, closed => by
    obtain ⟨more, first⟩ := head.visits numbered (above _ List.mem_cons_self) run closed
    have active := head.active
    obtain ⟨all, second⟩ := tail.visits numbered (fun u used a working =>
      above u (List.mem_cons_of_mem _ used) a (active ▸ working)) first.run first.closed
    exact ⟨all, first.trans second⟩

end

/-- All types in front of a place are composed. Each type that has its result then was got to along
traits that are seen, from the first type that gets to it at all. -/
structure Swept (m : CodeModel) (place : Nat) (turns : List Turn) (s : Composing) : Prop where
  run : Turns m turns s.idle
  closed : Closed m s
  unworked : s.active = []
  known : ∀ i, s.resultOf i ≠ .pending ↔ ∃ root < place, ReflTransGen m.UsesTrait root i
  first : ∀ root < place, ∀ i, ReflTransGen m.UsesTrait root i →
    (∀ earlier < root, ¬ReflTransGen m.UsesTrait earlier i) →
      ReflTransGen (m.Sees (order turns)) root i

theorem Swept.start (m : CodeModel) : Swept m 0 [] (.start m) where
  run := .start
  closed d _ _ known := absurd (start_result m d) known
  unworked := rfl
  known i := ⟨fun known => absurd (start_result m i) known,
    fun ⟨_, before, _⟩ => absurd before (Nat.not_lt_zero _)⟩
  first _ before := absurd before (Nat.not_lt_zero _)

theorem Swept.next (numbered : Numbered TypeDecl.id m.types) {place : Nat} {turns : List Turn}
    (swept : Swept m place turns s) (runs : Runs m s place table s') (inside : place < m.types.size) :
    ∃ turns', Swept m (place + 1) turns' s' := by
  obtain ⟨turns', visits⟩ := runs.visits numbered (by simp [swept.unworked]) swept.run swept.closed
  have unworked : s'.active = [] := runs.active.trans swept.unworked
  have here : s'.resultOf place ≠ .pending := by
    rw [runs.outcome (by simp [swept.unworked]) (swept.run.size.symm ▸ inside)
      (by simp [CodeModel.type?, inside])]
    cases table <;> simp [Composition.ofTable?]
  have reached {i : Nat} (path : ReflTransGen m.UsesTrait place i) : s'.resultOf i ≠ .pending :=
    visits.closed.reached unworked path here
  have sight {i : Nat} (new : s.resultOf i = .pending) (known : s'.resultOf i ≠ .pending) :
      ReflTransGen (m.Sees (order turns')) place i := by
    obtain ⟨root, listed, path⟩ := visits.reached i new known
    rwa [List.mem_singleton.mp listed] at path
  refine ⟨turns', visits.run, visits.closed, unworked, fun i => ⟨fun known => ?_, ?_⟩, ?_⟩
  · by_cases new : s.resultOf i = .pending
    · exact ⟨place, Nat.lt_succ_self _, CodeModel.path_of_sees (sight new known)⟩
    · obtain ⟨root, before, path⟩ := (swept.known i).mp new
      exact ⟨root, Nat.lt_succ_of_lt before, path⟩
  · rintro ⟨root, before, path⟩
    rcases Nat.lt_succ_iff_lt_or_eq.mp before with earlier | rfl
    · have old := (swept.known i).mpr ⟨root, earlier, path⟩
      rwa [runs.keeps old]
    · exact reached path
  · intro root before i path least
    rcases Nat.lt_succ_iff_lt_or_eq.mp before with earlier | rfl
    · exact path_later visits.more (swept.first root earlier i path least)
    · refine sight ?_ (reached path)
      by_contra old
      obtain ⟨earlier, before, path'⟩ := (swept.known i).mp old
      exact least earlier before path'

theorem RunsEach.swept (numbered : Numbered TypeDecl.id m.types) {ids : List Nat}
    (each : RunsEach m s ids s') {place : Nat} {turns : List Turn} (swept : Swept m place turns s)
    (listed : ids = List.range' place ids.length) (inside : place + ids.length ≤ m.types.size) :
    ∃ turns', Swept m (place + ids.length) turns' s' := by
  induction each generalizing place turns with
  | nil => exact ⟨turns, swept⟩
  | @cons s s' s'' id ids table head tail ih =>
    rw [List.length_cons, List.range'_succ, List.cons.injEq] at listed
    rw [List.length_cons] at inside
    obtain ⟨rfl, behind⟩ := listed
    obtain ⟨turns', next⟩ := swept.next numbered head (by omega)
    obtain ⟨all, last⟩ := ih next behind (by omega)
    exact ⟨all, by rwa [List.length_cons, Nat.add_comm ids.length, ← Nat.add_assoc]⟩

/-- The run over all types, in turns. -/
theorem run_all_swept (numbered : Numbered TypeDecl.id m.types) {depth : Nat}
    (deep : m.types.size < depth) : ∃ turns, Swept m m.types.size turns (runAll m depth) := by
  have ids : m.types.toList.map (·.id) = List.range' 0 m.types.toList.length := by
    refine List.ext_getElem (by simp) fun i before _ => ?_
    rw [List.getElem_map, List.getElem_range', Nat.zero_add, Nat.one_mul]
    exact numbered i _ (by simp)
  have length : (m.types.toList.map (·.id)).length = m.types.size := by simp
  obtain ⟨turns, swept⟩ := (run_all_runs deep).swept numbered (.start m) (by simpa using ids) (by simp)
  rw [length, Nat.zero_add] at swept
  exact ⟨turns, swept⟩

namespace Turns

variable {before later : List Turn} {turn : Turn} {u : Nat}

theorem uses_iff (due : turn.Due m) :
    m.UsesTrait turn.type.id u ↔ u ∈ (m.usedTraits turn.type).map (·.1) :=
  ⟨fun ⟨_, found, used⟩ => Option.some.inj (due.known.symm.trans found) ▸ used,
    fun used => ⟨turn.type, due.known, used⟩⟩

/-- A trait is seen if it has its result in the turn. -/
theorem sees_iff (run : Turns m (before ++ turn :: later) s)
    (uses : m.UsesTrait turn.type.id u) :
    m.Sees (order (before ++ turn :: later)) turn.type.id u ↔ turn.state.resultOf u ≠ .pending := by
  have split : order (before ++ turn :: later) =
      before.map (·.type.id) ++ turn.type.id :: later.map (·.type.id) := by
    rw [order, List.map_append, List.map_cons]
  rw [run.split.1.listed]
  constructor
  · rintro ⟨-, front, behind, split', listed⟩
    have once : (order (before ++ turn :: later)).Nodup := run.once
    rw [split] at once split'
    have apart := (List.nodup_cons.mp (List.nodup_middle.mp once)).1
    rw [List.mem_append, not_or] at apart
    have same := (List.append_cons_inj_of_notMem apart.1 apart.2).mp split'
    exact same.1 ▸ listed
  · exact fun listed => ⟨uses, _, _, split, listed⟩

/-- Those types come in front of another one in the order that had their turns before. -/
theorem earlier (run : Turns m (before ++ turn :: later) s) :
    (order (before ++ turn :: later)).takeWhile (· ≠ turn.type.id) = order before := by
  have once : (order (before ++ turn :: later)).Nodup := run.once
  rw [order, List.map_append, List.map_cons] at once ⊢
  exact takeWhile_front once

end Turns

namespace Swept

theorem mem_order (swept : Swept m m.types.size turns s) (i : Nat) :
    i ∈ order turns ↔ i < m.types.size := by
  constructor
  · intro listed
    obtain ⟨turn, inside, rfl⟩ := List.mem_map.mp listed
    exact (Array.getElem?_eq_some_iff.mp (swept.run.due inside).known).1
  · intro inside
    exact (swept.run.listed i).mp ((swept.known i).mpr ⟨i, inside, .refl⟩)

/-- A use that is not seen is on a cycle. -/
theorem around_unseen (swept : Swept m m.types.size turns s) {d u : Nat} (uses : m.UsesTrait d u)
    (unseen : ¬m.Sees (order turns) d u) : ReflTransGen m.UsesTrait u d := by
  have run := swept.run
  have inside : d < m.types.size := by
    obtain ⟨decl, found, -⟩ := uses
    exact (Array.getElem?_eq_some_iff.mp found).1
  obtain ⟨turn, listed, rfl⟩ := List.mem_map.mp ((swept.mem_order d).mpr inside)
  obtain ⟨before, later, rfl⟩ := List.append_of_mem listed
  have waits : turn.state.resultOf u = .pending := by
    by_contra known
    exact unseen ((Turns.sees_iff run uses).mpr known)
  exact (run.due listed).around u ((Turns.uses_iff (run.due listed)).mp uses) waits

/-- The order of the turns in which all types are composed. -/
theorem arranged (swept : Swept m m.types.size turns s) : m.Arranged (order turns) where
  once := swept.run.once
  all := swept.mem_order
  around _ _ uses unseen := swept.around_unseen uses unseen
  first := swept.first

end Swept

/-- The run over all types gives each the table of the plain definition. -/
theorem run_all_plain (numbered : Numbered TypeDecl.id m.types) (acyclic : m.Acyclic)
    {t : TypeDecl} (member : t ∈ m.types) :
    (runAll m (m.types.size + 1)).resultOf t.id = .ofTable? (m.plain t.id) := by
  have deep := Nat.lt_succ_self m.types.size
  obtain ⟨turns, swept⟩ := run_all_swept numbered deep
  exact swept.run.plain numbered acyclic t.id (run_all_settled numbered deep member)

end Composing

end PhpAnalyser
