import PhpAnalyser.Proofs.Code.Contents
import PhpAnalyser.Proofs.Code.Referential
/-!
What every table holds that a composition makes, however the types use each other: a cycle gives a
table with fewer methods, but no method that does not belong there.
-/
namespace PhpAnalyser

open Relation (TransGen)

namespace CodeModel

variable (m : CodeModel)

def Belongs (method id : Nat) : Prop := ∃ c, m.callable? method = some c ∧ c.kind = .method id

/-- Where the binding of a type can come from: from the type itself, or through a trait that it uses
from any trait that it gets to. -/
inductive Origin (id : Nat) (binding : MethodBinding) : Prop
  | own (source : binding.source = .declared) (belongs : m.Belongs binding.method id)
  | lent (t owner : Nat) (source : binding.source = .fromTrait t ∨ binding.source = .renamed t)
      (uses : m.UsesTrait id t) (reaches : TransGen m.UsesTrait id owner)
      (belongs : m.Belongs binding.method owner)

/-- A table with every method that a type declares, and with no method that comes from elsewhere. -/
structure Grounded (t : TypeDecl) (table : MethodTable) : Prop where
  tidy : table.Tidy
  declared : ∀ key c, m.declared? t key = some c →
    SortedMap.find? table key = some (ownBinding c)
  origin : ∀ key binding, SortedMap.find? table key = some binding → m.Origin t.id binding

structure Brought (t : TypeDecl) (offer : Offer) : Prop where
  placed : offer.clause < t.uses.length
  uses : m.UsesTrait t.id offer.traitId
  owner : ∃ owner, TransGen m.UsesTrait t.id owner ∧ m.Belongs offer.binding.method owner

variable {m} {t u : TypeDecl} {offers : Offers} {table : MethodTable} {key : String}
  {binding : MethodBinding}

theorem used_place {used : Nat × Nat} (listed : used ∈ m.usedTraits t) :
    used.2 < t.uses.length := by
  simp only [usedTraits, List.mem_flatMap, List.mem_map] at listed
  obtain ⟨entry, member, id, -, rfl⟩ := listed
  exact (List.mem_zipIdx' member).1

theorem gathered_placed (m : CodeModel) (t : TypeDecl) (tables : Nat → MethodTable) :
    (Offers.gathered tables (m.usedTraits t)).Every fun _ offer => offer.clause < t.uses.length :=
  .gathered fun _ listed _ _ => used_place listed

theorem uses_of_used {id : Nat} (found : m.type? id = some t) {used : Nat × Nat}
    (listed : used ∈ m.usedTraits t) : m.UsesTrait id used.1 :=
  ⟨t, found, List.mem_map.mpr ⟨used, listed, rfl⟩⟩

theorem belongs_of_declared (whole : m.Referential) (member : t ∈ m.types)
    (found : SortedMap.find? (m.declaredTable t) key = some binding) :
    m.Belongs binding.method t.id := by
  rw [find_declared] at found
  obtain ⟨c, first, rfl⟩ := Option.map_eq_some_iff.mp found
  have listed : c ∈ m.methodsOf t := List.mem_of_find?_eq_some first
  obtain ⟨id, listed, there⟩ := List.mem_filterMap.mp listed
  obtain ⟨c', there', kind⟩ := whole.type_methods t member id listed
  have same : c' = c := Option.some.inj (there'.symm.trans there)
  have number : c.id = id := whole.callable_ids id c there
  rw [same] at kind
  exact ⟨c, by rw [ownBinding, number, there], kind⟩

/-- The methods that a type declares make up a table of their own. -/
theorem grounded_declared (whole : m.Referential) (member : t ∈ m.types) :
    m.Grounded t (m.declaredTable t) where
  tidy := declared_tidy t
  declared key _ own := find_own key own
  origin _ _ found := .own (source_of_declared found) (belongs_of_declared whole member found)

/-- What a used trait binds is brought to the type that uses it. -/
theorem Grounded.brings (grounded : m.Grounded u table) (uses : m.UsesTrait t.id u.id) {clause : Nat}
    (placed : clause < t.uses.length) (bound : binding ∈ table.bindings) :
    m.Brought t ⟨u.id, binding, clause⟩ := by
  obtain ⟨entry, listed, rfl⟩ := List.mem_map.mp bound
  have found := (grounded.tidy.ordered.mem_iff entry.1 entry.2).mp listed
  refine ⟨placed, uses, ?_⟩
  cases grounded.origin entry.1 entry.2 found with
  | own _ belongs => exact ⟨u.id, .single uses, belongs⟩
  | lent _ owner _ _ reaches belongs => exact ⟨owner, .head uses reaches, belongs⟩

theorem origin_of_lent (brought : offers.Every fun _ offer => m.Brought t offer)
    {old : MethodBinding} (lent : m.lent? t (key, offers.ofName key) = some old)
    (revised : Revised old binding) : m.Origin t.id binding := by
  rw [lent?] at lent
  split at lent
  · cases lent
  obtain ⟨offer, wins, rfl⟩ := Option.map_eq_some_iff.mp lent
  have here := brought.of_name (winner_mem wins)
  obtain ⟨owner, reaches, belongs⟩ := here.owner
  have method : binding.method = offer.binding.method := revised.method
  rw [← method] at belongs
  exact .lent offer.traitId owner (.inl revised.source) here.uses reaches belongs

theorem rule_offer_mem {rule : RenameRule} {offer : Offer}
    (offered : m.ruleOffer? offers rule = some offer) :
    offer ∈ offers.ofName (lowercase rule.method) := by
  cases named : rule.traitName with
  | some name =>
    rw [ruleOffer?, named] at offered
    exact List.mem_of_find?_eq_some offered
  | none =>
    rw [ruleOffer?, named] at offered
    exact List.mem_of_mem_head? offered

theorem origin_of_alias (brought : offers.Every fun _ offer => m.Brought t offer) {offer : Offer}
    (aliases : m.Aliases t offers key offer) (made : AliasOf offer binding) :
    m.Origin t.id binding := by
  obtain ⟨rule, -, _, -, -, offered⟩ := aliases
  have here := brought.of_name (rule_offer_mem offered)
  obtain ⟨owner, reaches, belongs⟩ := here.owner
  rw [← made.method] at belongs
  exact .lent offer.traitId owner (.inr made.source) here.uses reaches belongs

/-- The table of a type holds what it declares and what is brought to it. -/
theorem grounded_of_ok (whole : m.Referential) (member : t ∈ m.types) (tidy : offers.Tidy)
    (brought : offers.Every fun _ offer => m.Brought t offer)
    (ok : m.tableOf t offers = .ok table) : m.Grounded t table := by
  have composes := table_of_ok tidy ok
  refine ⟨composes.tidy, fun key c own => composes.declared key _ (find_own key own),
    fun key binding found => ?_⟩
  rcases composes.only key binding found with own | ⟨-, ⟨old, lent, revised⟩ | ⟨-, offer, aliases, made⟩⟩
  · exact (grounded_declared whole member).origin key binding own
  · exact origin_of_lent brought lent revised
  · exact origin_of_alias brought aliases made

end CodeModel

namespace Composing

variable {m : CodeModel}

def Tabled (m : CodeModel) (s : Composing) : Prop :=
  ∀ t ∈ m.types, ∀ table, s.resultOf t.id = .composed table → m.Grounded t table

theorem Tabled.close {s : Composing} (tabled : Tabled m s) {t : TypeDecl} {table : MethodTable}
    (numbered : Numbered TypeDecl.id m.types) (member : t ∈ m.types)
    (grounded : m.Grounded t table) : Tabled m (s.close t.id table) := by
  intro u there table' known
  rw [close_result] at known
  split at known
  next here =>
    cases known
    rwa [numbered.inj there member here.1]
  next => exact tabled u there table' known

theorem Tabled.fail {s : Composing} (tabled : Tabled m s) (id : Nat) (found : List Diagnostic) :
    Tabled m (s.fail id found) := by
  intro u there table known
  rw [fail_result] at known
  split at known
  · cases known
  · exact tabled u there table known

/-- What a type offers in a state, also if it has no table, is grounded. -/
theorem Tabled.shown {s : Composing} (tabled : Tabled m s) (whole : m.Referential) {u : TypeDecl}
    (member : u ∈ m.types) : m.Grounded u (shown m s u.id) := by
  rcases shown_cases m s u.id with own | composed
  · have numbered : Numbered TypeDecl.id m.types := whole.type_ids
    have found : m.type? u.id = some u := numbered.get member
    rw [own, fallback, found]
    exact CodeModel.grounded_declared whole member
  · exact tabled u member _ composed

/-- Whatever is offered in a turn is brought to the type that has it. -/
theorem Turn.Due.brought {turn : Turn} (due : turn.Due m) (whole : m.Referential)
    (tabled : Tabled m turn.state) :
    (turn.offers m).Every fun _ offer => m.Brought turn.type offer := by
  refine .gathered fun used listed binding bound => ?_
  obtain ⟨u, found, -⟩ :=
    CodeModel.trait_of_used whole.type_ids (List.mem_map.mpr ⟨used, listed, rfl⟩)
  have number : u.id = used.1 := whole.type_ids used.1 u found
  have uses := CodeModel.uses_of_used due.known listed
  rw [← number] at uses bound ⊢
  exact (tabled.shown whole (Array.mem_of_getElem? found)).brings uses
    (CodeModel.used_place listed) bound

/-- All tables that turns lead to are grounded. -/
theorem Turns.tabled (whole : m.Referential) {turns : List Turn} {s : Composing}
    (run : Turns m turns s) : Tabled m s := by
  induction run with
  | start =>
    intro t _ table known
    rw [start_result] at known
    cases known
  | @next turns turn before due ih =>
    have member : turn.type ∈ m.types := Array.mem_of_getElem? due.known
    rw [Turn.after]
    cases verdict : turn.verdict m with
    | ok table =>
      have brought := due.brought whole ih
      exact ih.close whole.type_ids member
        (CodeModel.grounded_of_ok whole member (Offers.gathered_tidy _) brought verdict)
    | error found => exact ih.fail _ found

/-- In the end every table is grounded. -/
theorem run_all_tabled (whole : m.Referential) {depth : Nat} (deep : m.types.size < depth) :
    Tabled m (runAll m depth) := by
  obtain ⟨turns, swept⟩ := run_all_swept whole.type_ids deep
  exact swept.run.tabled whole

end Composing

end PhpAnalyser
