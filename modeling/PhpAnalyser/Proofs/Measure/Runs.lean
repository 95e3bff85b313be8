import Mathlib.Data.List.Induction
import Mathlib.Data.List.Nodup
import Mathlib.Data.List.Perm.Basic
import PhpAnalyser.Command.Analysis
/-!
Runs of an engine: the order that instruments are placed in, and what each of them has found when
all have measured.
-/
namespace PhpAnalyser

namespace Engine

def EachBehind (P : List α → α → Prop) (l : List α) : Prop :=
  ∀ before a behind, l = before ++ a :: behind → P before a

theorem each_behind_nil {P : List α → α → Prop} : EachBehind P [] := by simp [EachBehind]

theorem each_behind_snoc {P : List α → α → Prop} {l : List α} {a : α} :
    EachBehind P (l ++ [a]) ↔ EachBehind P l ∧ P l a := by
  constructor
  · refine fun every => ⟨fun before b behind split => ?_, every l a [] rfl⟩
    exact every before b (behind ++ [a]) (by rw [split, List.append_assoc, List.cons_append])
  · rintro ⟨every, last⟩ before b behind split
    cases behind using List.reverseRecOn with
    | nil =>
      obtain ⟨rfl, same⟩ := List.append_inj' split rfl
      obtain rfl := List.singleton_inj.mp same
      exact last
    | append_singleton behind other =>
      rw [← List.cons_append, ← List.append_assoc] at split
      exact every before b behind (List.append_inj' split rfl).1

def InOrder (l : List Instrument) : Prop :=
  ∀ before i behind, l = before ++ i :: behind → isReady before i = true

theorem in_order_nil : InOrder [] := each_behind_nil

theorem in_order_snoc {l : List Instrument} {i : Instrument} :
    InOrder (l ++ [i]) ↔ InOrder l ∧ isReady l i = true := each_behind_snoc

/-- One round of `place`: the first ready instrument moves behind the placed ones. -/
theorem place_cases (fuel : Nat) (placed pending : List Instrument) :
    (place (fuel + 1) placed pending = (placed, pending) ∧
      ∀ i ∈ pending, isReady placed i = false) ∨
    ∃ before x behind, pending = before ++ x :: behind ∧ isReady placed x = true ∧
      (∀ i ∈ before, isReady placed i = false) ∧
      place (fuel + 1) placed pending = place fuel (placed ++ [x]) (before ++ behind) := by
  rw [place]
  cases found : pending.findIdx? (isReady placed) with
  | none => exact .inl ⟨rfl, List.findIdx?_eq_none_iff.mp found⟩
  | some k =>
    obtain ⟨low, ready, first⟩ := List.findIdx?_eq_some_iff_getElem.mp found
    refine .inr ⟨pending.take k, pending[k], pending.drop (k + 1), ?_, ready, ?_, ?_⟩
    · rw [List.getElem_cons_drop, List.take_append_drop]
    · intro i member
      obtain ⟨j, before, rfl⟩ := List.mem_take_iff_getElem.mp member
      simpa using first j (by omega)
    · simp only [List.getElem?_eq_getElem low, Option.toList_some,
        List.eraseIdx_eq_take_drop_succ]

/-- What a round keeps, placing keeps. -/
theorem place_keeps {I : List Instrument → List Instrument → Prop}
    (round : ∀ placed before x behind, I placed (before ++ x :: behind) →
      isReady placed x = true → (∀ i ∈ before, isReady placed i = false) →
      I (placed ++ [x]) (before ++ behind))
    (fuel : Nat) {placed pending : List Instrument} (start : I placed pending) :
    I (place fuel placed pending).1 (place fuel placed pending).2 := by
  induction fuel generalizing placed pending with
  | zero => exact start
  | succ fuel ih =>
    rcases place_cases fuel placed pending with
      ⟨same, -⟩ | ⟨before, x, behind, rfl, ready, blocked, same⟩
    · rwa [same]
    · rw [same]
      exact ih (round placed before x behind start ready blocked)

theorem place_perm (fuel : Nat) (placed pending : List Instrument) :
    ((place fuel placed pending).1 ++ (place fuel placed pending).2).Perm (placed ++ pending) := by
  refine place_keeps (I := fun l r => (l ++ r).Perm (placed ++ pending)) ?_ fuel (.refl _)
  intro l before x behind perm _ _
  refine .trans ?_ perm
  rw [List.append_assoc, List.singleton_append]
  exact List.perm_middle.symm.append_left l

theorem place_in_order (fuel : Nat) {placed : List Instrument} (sorted : InOrder placed)
    (pending : List Instrument) : InOrder (place fuel placed pending).1 :=
  place_keeps (I := fun l _ => InOrder l)
    (fun _ _ _ _ sorted ready _ => in_order_snoc.mpr ⟨sorted, ready⟩) fuel sorted

/-- With a round for each of them, none of the instruments that are left is ready. -/
theorem place_stuck {fuel : Nat} (placed : List Instrument) {pending : List Instrument}
    (enough : pending.length ≤ fuel) :
    ∀ i ∈ (place fuel placed pending).2, isReady (place fuel placed pending).1 i = false := by
  induction fuel generalizing placed pending with
  | zero =>
    obtain rfl := List.length_eq_zero_iff.mp (Nat.le_zero.mp enough)
    simp [place]
  | succ fuel ih =>
    rcases place_cases fuel placed pending with
      ⟨same, stuck⟩ | ⟨before, x, behind, rfl, -, -, same⟩
    · rwa [same]
    · rw [same]
      refine ih _ ?_
      simp only [List.length_append, List.length_cons] at enough ⊢
      omega

/-- The outcomes of ordering: a dependency is missing, or the instruments that can be placed are,
and the others, if there are any, wait for each other. -/
theorem order_cases {e : Engine} (fresh : e.ordered = false) :
    (∃ fault, missing? e.instruments = some fault ∧ e.order = (e, some fault)) ∨
    (missing? e.instruments = none ∧ ∃ placed pending,
      place e.instruments.length [] e.instruments = (placed, pending) ∧
        (pending = [] ∧ e.order = ({ e with instruments := placed, ordered := true }, none) ∨
          pending ≠ [] ∧ e.order = ({ e with instruments := placed ++ pending },
            some (.dependencyCycle (pending.map (·.id)))))) := by
  rw [order, if_neg (by simp [fresh])]
  cases missing? e.instruments with
  | some fault => exact .inl ⟨fault, rfl, rfl⟩
  | none =>
    refine .inr ⟨rfl, ?_⟩
    rcases place e.instruments.length [] e.instruments with ⟨placed, - | ⟨i, rest⟩⟩
    · exact ⟨placed, [], rfl, .inl ⟨rfl, rfl⟩⟩
    · exact ⟨placed, i :: rest, rfl, .inr ⟨List.cons_ne_nil i rest, rfl⟩⟩

/-- An order that was found is one of the same instruments. -/
theorem order_ok {e e' : Engine} (fresh : e.ordered = false) (found : e.order = (e', none)) :
    e'.instruments.Perm e.instruments ∧ InOrder e'.instruments ∧ e'.filter = e.filter := by
  have perm := place_perm e.instruments.length [] e.instruments
  have sorted := place_in_order e.instruments.length in_order_nil e.instruments
  rcases order_cases fresh with
    ⟨fault, -, eq⟩ | ⟨-, placed, pending, split, ⟨rfl, eq⟩ | ⟨-, eq⟩⟩ <;> rw [found] at eq
  · cases (Prod.mk.inj eq).2
  · rw [split] at perm sorted
    cases (Prod.mk.inj eq).1
    exact ⟨by simpa using perm, sorted, rfl⟩
  · cases (Prod.mk.inj eq).2

/-- No dependency is missing if all are among the ids. -/
theorem missing_eq_none {instruments : List Instrument} :
    missing? instruments = none ↔ ∀ i ∈ instruments, ∀ dependency ∈ i.analyzer.dependencies,
      dependency ∈ instruments.map (·.id) := by
  rw [missing?, List.findSome?_eq_none_iff]
  constructor
  · intro none i member dependency asked
    have here := none (i.id, dependency)
      (List.mem_flatMap.mpr ⟨i, member, List.mem_map_of_mem asked⟩)
    dsimp only at here
    split at here
    next there =>
      obtain ⟨j, listed, named⟩ := List.any_eq_true.mp there
      exact List.mem_map.mpr ⟨j, listed, of_decide_eq_true named⟩
    · cases here
  · rintro present ⟨id, dependency⟩ listed
    obtain ⟨i, member, asked⟩ := List.mem_flatMap.mp listed
    obtain ⟨dependency, asked, same⟩ := List.mem_map.mp asked
    cases same
    obtain ⟨j, there, named⟩ := List.mem_map.mp (present i member dependency asked)
    exact if_pos (List.any_eq_true.mpr ⟨j, there, decide_eq_true named⟩)

/-- There is an order if all dependencies are there and of any instruments that are left one is
ready. -/
theorem order_found {e : Engine} (fresh : e.ordered = false)
    (present : ∀ i ∈ e.instruments, ∀ dependency ∈ i.analyzer.dependencies,
      dependency ∈ e.ids)
    (grounded : ∀ placed pending, (placed ++ pending).Perm e.instruments → pending ≠ [] →
      ∃ i ∈ pending, isReady placed i = true) : ∃ e', e.order = (e', none) := by
  have perm := place_perm e.instruments.length [] e.instruments
  have stuck := place_stuck [] (Nat.le_refl e.instruments.length)
  rcases order_cases fresh with
    ⟨fault, missing, -⟩ | ⟨-, placed, pending, split, ⟨-, eq⟩ | ⟨some, -⟩⟩
  · cases missing.symm.trans (missing_eq_none.mpr present)
  · exact ⟨_, eq⟩
  · rw [split] at perm stuck
    obtain ⟨j, left_over, ready⟩ := grounded placed pending perm some
    cases ready.symm.trans (stuck j left_over)

variable (m : CodeModel) (f : Filter)

def outcome (l : List Instrument) : List Instrument := (l.foldl (step m f) ([], [])).1

def given (finished : List Instrument) (i : Instrument) : Results :=
  Instrument.results (finished.filter fun other => i.analyzer.dependencies.contains other.id)

variable {m f}

/-- An instrument behind the others has measured with what it is given of them. -/
theorem outcome_snoc (l : List Instrument) {i : Instrument} (fresh : i.findings = none) :
    outcome m f (l ++ [i]) = outcome m f l ++ [⟨i.analyzer, (i.withFilter f).filter,
      some (i.analyzer.measure m (i.withFilter f).filter (given (outcome m f l) i))⟩] := by
  have kept : i.withFilter f = ⟨i.analyzer, (i.withFilter f).filter, none⟩ := by
    rw [← fresh]
    unfold Instrument.withFilter
    split <;> rfl
  rw [outcome, List.foldl_append, List.foldl_cons, List.foldl_nil, step, kept]
  rfl

theorem outcome_analyzers {l : List Instrument} (fresh : ∀ i ∈ l, i.findings = none) :
    (outcome m f l).map (·.analyzer) = l.map (·.analyzer) := by
  induction l using List.reverseRecOn with
  | nil => rfl
  | append_singleton l i ih =>
    rw [outcome_snoc l (fresh i (by simp)), List.map_append,
      ih fun j member => fresh j (List.mem_append_left _ member), List.map_append,
      List.map_singleton, List.map_singleton]

/-- An instrument has measured, and was given what some others of a run have found. -/
structure Told (m : CodeModel) (finished : List Instrument) (i : Instrument) (r : Results) :
    Prop where
  findings : i.findings = some (i.analyzer.measure m i.filter r)
  dependencies : ∀ id ∈ i.analyzer.dependencies, ∃ j ∈ finished, j.id = id ∧ r.of id = j.nodes

/-- Results under a name are those of an instrument with that name, if there is one. -/
theorem given_of {finished : List Instrument} {i j : Instrument} (there : j ∈ finished)
    (asked : j.id ∈ i.analyzer.dependencies) :
    ∃ k ∈ finished, k.id = j.id ∧ (given finished i).of j.id = k.nodes := by
  cases found : List.lookup j.id (given finished i) with
  | none =>
    have no_row := List.lookup_eq_none_iff.mp found (j.id, j.nodes) <| List.mem_map.mpr
      ⟨j, List.mem_filter.mpr ⟨there, by simpa using asked⟩, rfl⟩
    simp at no_row
  | some nodes =>
    obtain ⟨before, behind, split, -⟩ := List.lookup_eq_some_iff.mp found
    have row : (j.id, nodes) ∈ given finished i := by simp [split]
    obtain ⟨k, kept, same⟩ := List.mem_map.mp row
    obtain ⟨id, rfl⟩ := Prod.mk.inj same
    refine ⟨k, (List.mem_filter.mp kept).1, id, ?_⟩
    rw [Results.of, found, Option.getD_some]

theorem outcome_told {l : List Instrument} (fresh : ∀ i ∈ l, i.findings = none)
    (sorted : InOrder l) : ∀ i ∈ outcome m f l, ∃ r, Told m (outcome m f l) i r := by
  induction l using List.reverseRecOn with
  | nil => simp [outcome]
  | append_singleton l i ih =>
    obtain ⟨sorted, ready⟩ := in_order_snoc.mp sorted
    have fresh' : ∀ j ∈ l, j.findings = none :=
      fun j member => fresh j (List.mem_append_left _ member)
    have same := outcome_analyzers (m := m) (f := f) fresh'
    rw [outcome_snoc l (fresh i (by simp))]
    intro j member
    rcases List.mem_append.mp member with old | new
    · obtain ⟨r, told⟩ := ih fresh' sorted j old
      refine ⟨r, told.findings, fun id asked => ?_⟩
      obtain ⟨k, there, rest⟩ := told.dependencies id asked
      exact ⟨k, List.mem_append_left _ there, rest⟩
    · obtain rfl := List.mem_singleton.mp new
      refine ⟨given (outcome m f l) i, rfl, fun id asked => ?_⟩
      obtain ⟨k, placed, named⟩ := List.any_eq_true.mp (List.all_eq_true.mp ready id asked)
      have listed : k.analyzer ∈ (outcome m f l).map (·.analyzer) :=
        same ▸ List.mem_map_of_mem placed
      obtain ⟨j, there, is⟩ := List.mem_map.mp listed
      have id_j : j.id = id := by
        rw [Instrument.id, is]
        exact of_decide_eq_true named
      obtain ⟨k, there, name, results⟩ := given_of (i := i) there (id_j ▸ asked)
      exact ⟨k, List.mem_append_left _ there, name.trans id_j, id_j ▸ results⟩

theorem outcome_filter {l : List Instrument} (fresh : ∀ i ∈ l, i.findings = none)
    (filtered : ∀ i ∈ l, i.analyzer.capabilities.filtered = true) :
    ∀ i ∈ outcome m f l, i.filter = f := by
  induction l using List.reverseRecOn with
  | nil => simp [outcome]
  | append_singleton l i ih =>
    rw [outcome_snoc l (fresh i (by simp))]
    intro j member
    rcases List.mem_append.mp member with old | new
    · exact ih (fun j member => fresh j (List.mem_append_left _ member))
        (fun j member => filtered j (List.mem_append_left _ member)) j old
    · rw [List.mem_singleton.mp new]
      dsimp only
      rw [Instrument.withFilter, if_pos (filtered i (by simp))]

theorem run_ok {e e' : Engine} (found : e.order = (e', none)) (m : CodeModel) :
    ∃ measured, (e.run m).2 = .ok ⟨outcome m e'.filter e'.instruments, measured⟩ := by
  rw [run, found]
  exact ⟨_, rfl⟩

/-- A fault in the order is that of every run. -/
theorem run_fault {e e' : Engine} {fault : ConfigError} (found : e.order = (e', some fault))
    (m : CodeModel) : (e.run m).2 = .error fault := by
  rw [run, found]

end Engine

namespace Analysis

def fresh (analyzers : List Analyzer) (f : Filter) : Engine :=
  ⟨analyzers.map .ofAnalyzer, f, false⟩

theorem register_cases {e e' : Engine} {a : Analyzer} (registered : e.register a = .ok e') :
    e' = { e with instruments := e.instruments ++ [.ofAnalyzer a], ordered := false } := by
  rw [Engine.register] at registered
  split at registered
  · cases registered
  split at registered
  · cases registered
  · cases registered
    rfl

theorem engine_ok {analyzers : List Analyzer} {f : Filter} {e : Engine}
    (registered : engine analyzers f = .ok e) : e = fresh analyzers f := by
  have each (analyzers : List Analyzer) : ∀ start : Engine, start.ordered = false →
      analyzers.foldlM Engine.register start = .ok e → e = { start with
        instruments := start.instruments ++ analyzers.map .ofAnalyzer } := by
    induction analyzers with
    | nil =>
      intro start _ done
      cases done
      rw [List.map_nil, List.append_nil]
    | cons a rest ih =>
      intro start ordered done
      rw [List.foldlM_cons] at done
      cases first : start.register a with
      | error fault =>
        rw [first] at done
        cases done
      | ok next =>
        rw [first] at done
        obtain rfl := register_cases first
        rw [ih _ rfl done, List.append_assoc, List.map_cons, List.singleton_append, ordered]
  exact each analyzers _ rfl registered

theorem engine_registers {analyzers : List Analyzer} (f : Filter)
    (apart : (analyzers.map (·.id)).Nodup)
    (shaped : ∀ a ∈ analyzers, a.capabilities.perNode = true ∨ a.capabilities.perProject = true) :
    engine analyzers f = .ok (fresh analyzers f) := by
  have each (analyzers : List Analyzer) : ∀ start : Engine,
      (start.ids ++ analyzers.map (·.id)).Nodup → (∀ a ∈ analyzers,
        a.capabilities.perNode = true ∨ a.capabilities.perProject = true) →
      ∃ e, analyzers.foldlM Engine.register start = .ok e := by
    induction analyzers with
    | nil => exact fun start _ _ => ⟨start, rfl⟩
    | cons a rest ih =>
      intro start apart shaped
      have unknown : start.ids.contains a.id = false := by
        rw [List.nodup_append] at apart
        have free := fun listed => apart.2.2 a.id listed a.id (by simp) rfl
        simpa using free
      have shape : (!a.capabilities.perNode && !a.capabilities.perProject) = false := by
        rcases shaped a List.mem_cons_self with yes | yes
        · rw [yes]
          rfl
        · rw [yes, Bool.not_true, Bool.and_false]
      have first : start.register a =
          .ok { start with
            instruments := start.instruments ++ [.ofAnalyzer a], ordered := false } := by
        rw [Engine.register, unknown, shape]
        rfl
      rw [List.foldlM_cons, first]
      refine ih _ ?_ fun b listed => shaped b (List.mem_cons_of_mem a listed)
      simpa [Engine.ids, Instrument.ofAnalyzer, Instrument.id] using apart
  obtain ⟨e, registered⟩ := each analyzers { Engine.empty with filter := f } apart shaped
  rw [engine_ok registered] at registered
  exact registered

theorem register_new {e e' : Engine} {a : Analyzer} (registered : e.register a = .ok e') :
    a.id ∉ e.ids := by
  intro known
  rw [Engine.register, if_pos (by simpa using known)] at registered
  cases registered

end Analysis

namespace Engine

/-- The engines that come about when analyzers are registered, filters are set, and runs are
tried. -/
inductive Reached : Engine → Prop
  | empty : Reached .empty
  | register {e e' : Engine} {a : Analyzer} : Reached e → e.register a = .ok e' → Reached e'
  | filtered {e : Engine} (filter : Filter) : Reached e → Reached { e with filter }
  | run {e : Engine} (m : CodeModel) : Reached e → Reached (e.run m).1

theorem order_perm (e : Engine) : e.order.1.instruments.Perm e.instruments := by
  cases ordered : e.ordered with
  | true => rw [order, if_pos ordered]
  | false =>
    have perm := place_perm e.instruments.length [] e.instruments
    rcases order_cases ordered with
      ⟨fault, -, eq⟩ | ⟨-, placed, pending, split, ⟨rfl, eq⟩ | ⟨-, eq⟩⟩ <;> rw [eq]
    all_goals
      rw [split] at perm
      simpa using perm

theorem ids_of_fold (m : CodeModel) (f : Filter) (l : List Instrument)
    (state : List Instrument × List Measurement) :
    (l.foldl (step m f) state).1.map (·.id) = state.1.map (·.id) ++ l.map (·.id) := by
  induction l generalizing state with
  | nil => simp
  | cons i l ih =>
    have same (given : List Instrument) : ((i.withFilter f).analyze m given).1.id = i.id := by
      unfold Instrument.analyze Instrument.withFilter
      split <;> split <;> rfl
    rw [List.foldl_cons, ih, step]
    simp [same]

/-- A run may put the analyzers in another order, and registers none. -/
theorem run_ids (e : Engine) (m : CodeModel) : (e.run m).1.ids.Perm e.ids := by
  have perm := (order_perm e).map (·.id)
  unfold run
  split
  next eq => simpa [eq, ids] using perm
  next eq =>
    rw [ids, ids_of_fold]
    simpa [eq, ids] using perm

/-- No two analyzers of an engine have one id. -/
theorem Reached.apart {e : Engine} (reached : Reached e) : e.ids.Nodup := by
  induction reached with
  | empty => exact List.nodup_nil
  | register _ done ih =>
    have new := Analysis.register_new done
    obtain rfl := Analysis.register_cases done
    rw [ids, List.map_append, List.map_singleton, ← List.concat_eq_append]
    exact ih.concat new
  | filtered _ _ ih => exact ih
  | run m _ ih => exact (run_ids _ m).nodup_iff.mpr ih

theorem reached_of_registered {analyzers : List Analyzer} {f : Filter} {e : Engine}
    (registered : Analysis.engine analyzers f = .ok e) : Reached e := by
  have each (analyzers : List Analyzer) : ∀ start : Engine, Reached start →
      analyzers.foldlM Engine.register start = .ok e → Reached e := by
    induction analyzers with
    | nil =>
      intro start reached done
      cases done
      exact reached
    | cons a rest ih =>
      intro start reached done
      rw [List.foldlM_cons] at done
      cases first : start.register a with
      | error fault =>
        rw [first] at done
        cases done
      | ok next =>
        rw [first] at done
        exact ih next (.register reached first) done
  exact each analyzers _ (.filtered f .empty) registered

end Engine

end PhpAnalyser
