import Mathlib.Data.List.Perm.Subperm
import PhpAnalyser.Proofs.Code.Choice
/-!
How types are composed, as a relation without a bound on the depth. What the relation keeps, the
composition of a model keeps, and the bound is never met.
-/
namespace PhpAnalyser

def Composition.ofTable? : Option MethodTable → Composition
  | some table => .composed table
  | none => .failed

theorem Composition.table_of_table (table : Option MethodTable) :
    (Composition.ofTable? table).table? = table := by
  cases table <;> rfl

namespace Composing

def fallback (m : CodeModel) (id : Nat) : MethodTable := (m.type? id).elim [] m.declaredTable

def enter (s : Composing) (id : Nat) : Composing := { s with active := id :: s.active }

def close (s : Composing) (id : Nat) (table : MethodTable) : Composing :=
  { s with
    active := s.active.filter (· ≠ id)
    results := s.results.modify id fun _ => .composed table }

def fail (s : Composing) (id : Nat) (found : List Diagnostic) : Composing where
  active := s.active.filter (· ≠ id)
  results := s.results.modify id fun _ => .failed
  collisions := s.collisions ++ found

mutual

/-- The composition of a type leads from a state to a table, or to none, and another state. -/
inductive Runs (m : CodeModel) : Composing → Nat → Option MethodTable → Composing → Prop
  | composed {s : Composing} {id : Nat} {table : MethodTable}
      (known : s.resultOf id = .composed table) : Runs m s id (some table) s
  | failed {s : Composing} {id : Nat} (known : s.resultOf id = .failed) : Runs m s id none s
  | unknown {s : Composing} {id : Nat} (pending : s.resultOf id = .pending)
      (missing : m.type? id = none) : Runs m s id none s
  | again {s : Composing} {id : Nat} {t : TypeDecl} (pending : s.resultOf id = .pending)
      (found : m.type? id = some t) (active : id ∈ s.active) :
      Runs m s id (some (m.declaredTable t)) s
  | settles {s s' : Composing} {id : Nat} {t : TypeDecl} {offers : Offers} {table : MethodTable}
      (pending : s.resultOf id = .pending) (found : m.type? id = some t) (fresh : id ∉ s.active)
      (gathers : Gathers m (s.enter id) [] (m.usedTraits t) offers s')
      (ok : m.tableOf t offers = .ok table) : Runs m s id (some table) (s'.close id table)
  | collides {s s' : Composing} {id : Nat} {t : TypeDecl} {offers : Offers}
      {reported : List Diagnostic} (pending : s.resultOf id = .pending)
      (found : m.type? id = some t) (fresh : id ∉ s.active)
      (gathers : Gathers m (s.enter id) [] (m.usedTraits t) offers s')
      (error : m.tableOf t offers = .error reported) : Runs m s id none (s'.fail id reported)

/-- The used traits are composed one by one, and their tables added to the offers. -/
inductive Gathers (m : CodeModel) :
    Composing → Offers → List (Nat × Nat) → Offers → Composing → Prop
  | nil {s : Composing} {offers : Offers} : Gathers m s offers [] offers s
  | cons {s s' s'' : Composing} {offers offers' : Offers} {used : Nat × Nat}
      {rest : List (Nat × Nat)} {table : Option MethodTable} (head : Runs m s used.1 table s')
      (tail : Gathers m s' (offers.addTable used.1 used.2 (table.getD (fallback m used.1))) rest
        offers' s'') :
      Gathers m s offers (used :: rest) offers' s''

end

variable {m : CodeModel} {s s' : Composing} {id : Nat} {table : Option MethodTable}
  {offers offers' : Offers} {used : List (Nat × Nat)}

theorem left_entered {active : List Nat} (fresh : id ∉ active) :
    (id :: active).filter (· ≠ id) = active := by
  rw [List.filter_cons_of_neg (by simp), List.filter_eq_self]
  intro other member
  simpa using fun same : other = id => fresh (same ▸ member)

mutual

/-- Whatever was in work before is in work behind. -/
theorem Runs.active {s s' : Composing} {id : Nat} {table : Option MethodTable} :
    Runs m s id table s' → s'.active = s.active
  | .composed _ | .failed _ | .unknown .. | .again .. => rfl
  | .settles _ _ fresh gathers _ => by
    rw [close, gathers.active, enter]
    exact left_entered fresh
  | .collides _ _ fresh gathers _ => by
    rw [fail, gathers.active, enter]
    exact left_entered fresh

theorem Gathers.active {s s' : Composing} {offers offers' : Offers} {used : List (Nat × Nat)} :
    Gathers m s offers used offers' s' → s'.active = s.active
  | .nil => rfl
  | .cons head tail => tail.active.trans head.active

end

mutual

theorem Runs.size {s s' : Composing} {id : Nat} {table : Option MethodTable} :
    Runs m s id table s' → s'.results.size = s.results.size
  | .composed _ | .failed _ | .unknown .. | .again .. => rfl
  | .settles _ _ _ gathers _ => by
    rw [close, Array.size_modify, gathers.size, enter]
  | .collides _ _ _ gathers _ => by
    rw [fail, Array.size_modify, gathers.size, enter]

theorem Gathers.size {s s' : Composing} {offers offers' : Offers} {used : List (Nat × Nat)} :
    Gathers m s offers used offers' s' → s'.results.size = s.results.size
  | .nil => rfl
  | .cons head tail => tail.size.trans head.size

end

theorem result_of_modify (results : Array Composition) (id i : Nat) (c : Composition) :
    (results.modify id fun _ => c)[i]?.getD .pending =
      if i = id ∧ id < results.size then c else results[i]?.getD .pending := by
  rw [Array.getElem?_modify]
  by_cases same : id = i
  · subst same
    by_cases inside : id < results.size <;> simp [inside]
  · simp [same, Ne.symm same]

theorem close_result (s : Composing) (id i : Nat) (table : MethodTable) :
    (s.close id table).resultOf i =
      if i = id ∧ id < s.results.size then .composed table else s.resultOf i :=
  result_of_modify s.results id i _

theorem fail_result (s : Composing) (id i : Nat) (found : List Diagnostic) :
    (s.fail id found).resultOf i =
      if i = id ∧ id < s.results.size then .failed else s.resultOf i :=
  result_of_modify s.results id i _

theorem fresh_apart {active : List Nat} {a : Nat} {p : Prop} (fresh : id ∉ active)
    (working : a ∈ active) : ¬(a = id ∧ p) := by
  rintro ⟨rfl, -⟩
  exact fresh working

theorem known_apart {i : Nat} {p : Prop} (known : s.resultOf i ≠ .pending)
    (pending : s.resultOf id = .pending) : ¬(i = id ∧ p) := by
  rintro ⟨rfl, -⟩
  exact known pending

mutual

/-- A type in work gets no result before its turn ends. -/
theorem Runs.waits {s s' : Composing} {id : Nat} {table : Option MethodTable} {a : Nat} :
    Runs m s id table s' → a ∈ s.active → s.resultOf a = .pending → s'.resultOf a = .pending
  | .composed _, _, waiting | .failed _, _, waiting | .unknown .., _, waiting
  | .again .., _, waiting => waiting
  | .settles _ _ fresh gathers _, working, waiting => by
    rw [close_result, if_neg (fresh_apart fresh working)]
    exact gathers.waits (List.mem_cons_of_mem _ working) waiting
  | .collides _ _ fresh gathers _, working, waiting => by
    rw [fail_result, if_neg (fresh_apart fresh working)]
    exact gathers.waits (List.mem_cons_of_mem _ working) waiting

theorem Gathers.waits {s s' : Composing} {offers offers' : Offers} {used : List (Nat × Nat)}
    {a : Nat} :
    Gathers m s offers used offers' s' → a ∈ s.active → s.resultOf a = .pending →
      s'.resultOf a = .pending
  | .nil, _, waiting => waiting
  | .cons head tail, working, waiting =>
    tail.waits (head.active ▸ working) (head.waits working waiting)

end

mutual

/-- A result stays. -/
theorem Runs.keeps {s s' : Composing} {id : Nat} {table : Option MethodTable} {i : Nat} :
    Runs m s id table s' → s.resultOf i ≠ .pending → s'.resultOf i = s.resultOf i
  | .composed _, _ | .failed _, _ | .unknown .., _ | .again .., _ => rfl
  | .settles pending _ _ gathers _, known => by
    rw [close_result, if_neg (known_apart known pending)]
    exact gathers.keeps known
  | .collides pending _ _ gathers _, known => by
    rw [fail_result, if_neg (known_apart known pending)]
    exact gathers.keeps known

theorem Gathers.keeps {s s' : Composing} {offers offers' : Offers} {used : List (Nat × Nat)}
    {i : Nat} :
    Gathers m s offers used offers' s' → s.resultOf i ≠ .pending → s'.resultOf i = s.resultOf i
  | .nil, _ => rfl
  | .cons head tail, known => by
    have same := head.keeps known
    exact (tail.keeps (same.symm ▸ known)).trans same

end

/-- A type that was not in work has its result in the end. -/
theorem Runs.outcome (runs : Runs m s id table s') (fresh : id ∉ s.active)
    (inside : id < s.results.size) (known : (m.type? id).isSome) :
    s'.resultOf id = .ofTable? table := by
  cases runs with
  | composed known => exact known
  | failed known => exact known
  | unknown _ missing => simp [missing] at known
  | again _ _ active => exact absurd active fresh
  | settles _ _ _ gathers _ =>
    rw [close_result, if_pos ⟨rfl, gathers.size ▸ inside⟩]
    rfl
  | collides _ _ _ gathers _ =>
    rw [fail_result, if_pos ⟨rfl, gathers.size ▸ inside⟩]
    rfl

mutual

/-- There is one way for a composition to go. -/
theorem Runs.unique {s s' s'' : Composing} {id : Nat} {table table' : Option MethodTable} :
    Runs m s id table s' → Runs m s id table' s'' → table = table' ∧ s' = s''
  | .composed known, other => by cases other <;> simp_all
  | .failed known, other => by cases other <;> simp_all
  | .unknown pending missing, other => by cases other <;> simp_all
  | .again pending found active, other => by cases other <;> simp_all
  | .settles pending found fresh gathers ok, other => by
    cases other with
    | composed known => simp_all
    | failed known => simp_all
    | unknown _ missing => simp_all
    | again _ _ active => exact absurd active fresh
    | settles _ found' _ gathers' ok' =>
      obtain rfl := Option.some.inj (found.symm.trans found')
      obtain ⟨rfl, rfl⟩ := gathers.unique gathers'
      obtain rfl := Except.ok.inj (ok.symm.trans ok')
      exact ⟨rfl, rfl⟩
    | collides _ found' _ gathers' error =>
      obtain rfl := Option.some.inj (found.symm.trans found')
      obtain ⟨rfl, rfl⟩ := gathers.unique gathers'
      cases ok.symm.trans error
  | .collides pending found fresh gathers error, other => by
    cases other with
    | composed known => simp_all
    | failed known => simp_all
    | unknown _ missing => simp_all
    | again _ _ active => exact absurd active fresh
    | settles _ found' _ gathers' ok =>
      obtain rfl := Option.some.inj (found.symm.trans found')
      obtain ⟨rfl, rfl⟩ := gathers.unique gathers'
      cases ok.symm.trans error
    | collides _ found' _ gathers' error' =>
      obtain rfl := Option.some.inj (found.symm.trans found')
      obtain ⟨rfl, rfl⟩ := gathers.unique gathers'
      obtain rfl := Except.error.inj (error.symm.trans error')
      exact ⟨rfl, rfl⟩

theorem Gathers.unique {s s' s'' : Composing} {offers offers' offers'' : Offers}
    {used : List (Nat × Nat)} :
    Gathers m s offers used offers' s' → Gathers m s offers used offers'' s'' →
      offers' = offers'' ∧ s' = s''
  | .nil, .nil => ⟨rfl, rfl⟩
  | .cons head tail, .cons head' tail' => by
    obtain ⟨rfl, rfl⟩ := head.unique head'
    exact tail.unique tail'

end

structure Fits (m : CodeModel) (active : List Nat) (fuel : Nat) : Prop where
  apart : active.Nodup
  inside : ∀ id ∈ active, id < m.types.size
  room : m.types.size < fuel + active.length

namespace Fits

variable {active : List Nat} {fuel : Nat}

theorem pos (fits : Fits m active fuel) : fuel ≠ 0 := by
  have few : active.length ≤ m.types.size := by
    have sub : active.Subperm (List.range m.types.size) :=
      List.subperm_of_subset fits.apart fun id member => List.mem_range.mpr (fits.inside id member)
    simpa using sub.length_le
  have room := fits.room
  omega

theorem enter (fits : Fits m active (fuel + 1)) (fresh : id ∉ active) (inside : id < m.types.size) :
    Fits m (id :: active) fuel where
  apart := List.nodup_cons.mpr ⟨fresh, fits.apart⟩
  inside other member := by
    rcases List.mem_cons.mp member with rfl | member
    · exact inside
    · exact fits.inside other member
  room := by
    have room := fits.room
    rw [List.length_cons]
    omega

end Fits

theorem conclude_run (id : Nat) (result : Except (List Diagnostic) MethodTable) (s : Composing) :
    (conclude id result).run s =
      match result with
      | .ok table => (some table, s.close id table)
      | .error found => (none, s.fail id found) := by
  cases result <;> rfl

theorem compose_succ (m : CodeModel) (fuel id : Nat) (s : Composing) :
    (compose m (fuel + 1) id).run s =
      match s.resultOf id, m.type? id with
      | .composed table, _ => (some table, s)
      | .failed, _ => (none, s)
      | .pending, none => (none, s)
      | .pending, some t =>
        if s.active.contains id then (some (m.declaredTable t), s)
        else
          let gathered := ((m.usedTraits t).foldlM (gather m (compose m fuel)) []).run (s.enter id)
          (conclude id (m.tableOf t gathered.1)).run gathered.2 := by
  rw [compose]
  simp only [StateT.run_bind, StateT.run_get, pure_bind]
  cases s.resultOf id with
  | composed table => rfl
  | failed => rfl
  | pending =>
    cases m.type? id with
    | none => rfl
    | some t =>
      dsimp only
      split
      · rfl
      · rfl

theorem gather_runs {fuel : Nat}
    (each : ∀ s id, Fits m s.active fuel →
      Runs m s id ((compose m fuel id).run s).1 ((compose m fuel id).run s).2)
    (fits : Fits m s.active fuel) (offers : Offers) (used : List (Nat × Nat)) :
    Gathers m s offers used ((used.foldlM (gather m (compose m fuel)) offers).run s).1
      ((used.foldlM (gather m (compose m fuel)) offers).run s).2 := by
  induction used generalizing s offers with
  | nil => exact .nil
  | cons u rest ih =>
    have head := each s u.1 fits
    exact .cons head (ih (head.active.symm ▸ fits) _)

/-- With enough depth, composition is as the relation says. -/
theorem compose_runs {fuel : Nat} (fits : Fits m s.active fuel) :
    Runs m s id ((compose m fuel id).run s).1 ((compose m fuel id).run s).2 := by
  induction fuel generalizing s id with
  | zero => exact absurd rfl fits.pos
  | succ fuel ih =>
    rw [compose_succ]
    cases known : s.resultOf id with
    | composed table => exact .composed known
    | failed => exact .failed known
    | pending =>
      cases found : m.type? id with
      | none => exact .unknown known found
      | some t =>
        dsimp only
        split
        next active => exact .again known found (by simpa using active)
        next idle =>
          have fresh : id ∉ s.active := by simpa using idle
          have inside : id < m.types.size := (Array.getElem?_eq_some_iff.mp found).1
          have gathers := gather_runs (m := m) (s := s.enter id) (fun _ _ fits => ih fits)
            (fits.enter fresh inside) [] (m.usedTraits t)
          rw [conclude_run]
          cases result : m.tableOf t _ with
          | ok table => exact .settles known found fresh gathers result
          | error found' => exact .collides known found fresh gathers result

inductive RunsEach (m : CodeModel) : Composing → List Nat → Composing → Prop
  | nil {s : Composing} : RunsEach m s [] s
  | cons {s s' s'' : Composing} {id : Nat} {ids : List Nat} {table : Option MethodTable}
      (head : Runs m s id table s') (tail : RunsEach m s' ids s'') : RunsEach m s (id :: ids) s''

theorem RunsEach.unique {s s' s'' : Composing} {ids : List Nat} (first : RunsEach m s ids s')
    (second : RunsEach m s ids s'') : s' = s'' := by
  induction first with
  | nil => cases second; rfl
  | cons head _ ih =>
    cases second with
    | cons head' tail' =>
      obtain ⟨-, rfl⟩ := head.unique head'
      exact ih tail'

namespace RunsEach

variable {ids : List Nat}

theorem active (each : RunsEach m s ids s') : s'.active = s.active := by
  induction each with
  | nil => rfl
  | cons head tail ih => exact ih.trans head.active

theorem size (each : RunsEach m s ids s') : s'.results.size = s.results.size := by
  induction each with
  | nil => rfl
  | cons head tail ih => exact ih.trans head.size

theorem keeps (each : RunsEach m s ids s') {i : Nat} (known : s.resultOf i ≠ .pending) :
    s'.resultOf i = s.resultOf i := by
  induction each with
  | nil => rfl
  | cons head tail ih =>
    have same := head.keeps known
    exact (ih (same.symm ▸ known)).trans same

/-- When no type is in work, each one that is reached has its result in the end. -/
theorem settled (each : RunsEach m s ids s') (idle : s.active = [])
    (size : s.results.size = m.types.size) :
    ∀ i ∈ ids, i < m.types.size → s'.resultOf i ≠ .pending := by
  induction each with
  | nil => exact fun i listed => absurd listed List.not_mem_nil
  | @cons s s' s'' first ids table head tail ih =>
    intro i listed inside
    rcases List.mem_cons.mp listed with rfl | later
    · have outcome := head.outcome (by simp [idle]) (size.symm ▸ inside)
        (by simp [CodeModel.type?, inside])
      have known : s'.resultOf i ≠ .pending := by
        rw [outcome]
        cases table <;> simp [Composition.ofTable?]
      rw [tail.keeps known]
      exact known
    · exact ih (head.active.trans idle) (head.size.trans size) i later inside

end RunsEach

def runAll (m : CodeModel) (depth : Nat) : Composing :=
  ((m.types.toList.forM fun t => discard (compose m depth t.id)).run (.start m)).2

theorem each_runs {depth : Nat} (fits : Fits m s.active depth) (types : List TypeDecl) :
    RunsEach m s (types.map (·.id))
      ((types.forM fun t => discard (compose m depth t.id)).run s).2 := by
  induction types generalizing s with
  | nil => exact .nil
  | cons t rest ih =>
    have head : Runs m s t.id _ _ := compose_runs fits
    exact .cons head (ih (head.active.symm ▸ fits))

theorem run_all_runs {depth : Nat} (deep : m.types.size < depth) :
    RunsEach m (.start m) (m.types.toList.map (·.id)) (runAll m depth) :=
  each_runs ⟨List.nodup_nil, by simp [start], deep⟩ _

theorem start_result (m : CodeModel) (i : Nat) : (start m).resultOf i = .pending := by
  rw [resultOf, start, Array.getElem?_map]
  cases m.types[i]? <;> rfl

/-- In the end no type waits. -/
theorem run_all_settled (numbered : Numbered TypeDecl.id m.types) {depth : Nat}
    (deep : m.types.size < depth) {t : TypeDecl} (member : t ∈ m.types) :
    (runAll m depth).resultOf t.id ≠ .pending := by
  refine (run_all_runs deep).settled rfl (by simp [start]) _ ?_ (numbered.lt member)
  exact List.mem_map.mpr ⟨t, Array.mem_toList_iff.mpr member, rfl⟩

end Composing

theorem CodeModel.compose_all_eq (m : CodeModel) :
    m.composeAll =
      ({ m with types := m.types.map fun t =>
          { t with composition := (Composing.runAll m (m.types.size + 1)).resultOf t.id } },
        (Composing.runAll m (m.types.size + 1)).collisions) := rfl

end PhpAnalyser
