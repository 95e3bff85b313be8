import PhpAnalyser.Proofs.Code.Settled
/-!
Rules that give a method another visibility and no new name. Such a rule looks for its method at the
trait that it names, and then changes what the table binds under the name, from whichever trait that
is: the last of these rules that finds its method says how visible the binding is.
-/
namespace PhpAnalyser

def RenameRule.visibilityOf? (rule : RenameRule) (key : String) : Option Visibility :=
  if rule.newName = none ∧ lowercase rule.method = key then rule.visibility else none

namespace CodeModel

variable (m : CodeModel)

def written? (offers : Offers) (key : String) (rule : RenameRule) : Option Visibility :=
  if (m.ruleOffer? offers rule).isSome then rule.visibilityOf? key else none

def lastWritten? (t : TypeDecl) (offers : Offers) (key : String) : Option Visibility :=
  ((t.uses.flatMap (·.renames)).filterMap (m.written? offers key)).getLast?

def visibilityLeft (t : TypeDecl) (offers : Offers) (key : String) (selected : MethodBinding) :
    Visibility :=
  if selected.source = .declared then selected.visibility
  else (m.lastWritten? t offers key).getD selected.visibility

/-- A rule that changes the visibility of a method names the trait that it comes from. -/
def OwnRule (t : TypeDecl) (key : String) (source : MethodSource) : Prop :=
  ∃ rule ∈ t.uses.flatMap (·.renames), (rule.visibilityOf? key).isSome ∧
    ∃ name owner, rule.traitName = some name ∧ m.resolve name = some owner ∧
      source = .fromTrait owner.id

/-- A binding differs in visibility from the selected one only by a rule that names its trait. -/
def OwnTraitOnly (t : TypeDecl) (key : String) (selected binding : MethodBinding) : Prop :=
  binding.visibility ≠ selected.visibility → m.OwnRule t key binding.source

variable {m} {t : TypeDecl} {offers : Offers} {table : MethodTable} {key : String}
  {selected binding : MethodBinding}

theorem find_apply_rename (found : SortedMap.find? table key = some binding)
    (lent : binding.source ≠ .declared) (rule : RenameRule) :
    SortedMap.find? (m.applyRename offers table rule) key =
      some { binding with visibility := (m.written? offers key rule).getD binding.visibility } := by
  rw [applyRename, written?]
  cases m.ruleOffer? offers rule with
  | none => exact found
  | some offer =>
    rw [RenameRule.visibilityOf?]
    cases renamed : rule.newName with
    | some name =>
      dsimp only
      rw [MethodTable.find_add, found]
      rfl
    | none =>
      cases rule.visibility with
      | none =>
        dsimp only
        rw [ite_self, ite_self]
        exact found
      | some visibility =>
        dsimp only
        rw [MethodTable.find_set_visibility, found]
        by_cases same : lowercase rule.method = key
        · simp [same, lent]
        · simp [same, Ne.symm same]

/-- Behind all rules, a binding from a trait is as visible as the last of them leaves it. -/
theorem find_renames (found : SortedMap.find? table key = some binding)
    (lent : binding.source ≠ .declared) (rules : List RenameRule) :
    SortedMap.find? (rules.foldl (m.applyRename offers) table) key =
      some { binding with
        visibility := (rules.filterMap (m.written? offers key)).getLast?.getD binding.visibility } := by
  induction rules using List.reverseRecOn with
  | nil => exact found
  | append_singleton rules rule ih =>
    rw [List.foldl_append, List.foldl_cons, List.foldl_nil, find_apply_rename ih lent,
      List.filterMap_append]
    cases written : m.written? offers key rule with
    | none =>
      rw [List.filterMap_cons_none written, List.filterMap_nil, List.append_nil]
      rfl
    | some visibility =>
      rw [List.filterMap_cons_some written, List.filterMap_nil, List.getLast?_concat]
      rfl

/-- Of a selected binding the rules change the visibility alone. -/
theorem binding_of_selected (tidy : offers.Tidy) (ok : m.tableOf t offers = .ok table)
    (chosen : SortedMap.find? (m.chosenTable t offers) key = some selected) :
    SortedMap.find? table key =
      some { selected with visibility := m.visibilityLeft t offers key selected } := by
  rw [visibilityLeft]
  by_cases declared : selected.source = .declared
  · rw [if_pos declared]
    refine (table_of_ok tidy ok).declared key selected ?_
    rw [find_chosen tidy] at chosen
    rcases Option.or_eq_some_iff.mp chosen with own | ⟨-, lent⟩
    · exact own
    · rw [lent?] at lent
      split at lent
      · cases lent
      · obtain ⟨offer, -, rfl⟩ := Option.map_eq_some_iff.mp lent
        cases declared
  · rw [if_neg declared]
    rw [table_of_eq] at ok
    split at ok
    · cases ok
      exact find_renames chosen declared _
    · cases ok

/-- A rule reaches past its own trait if it is the last one on the name that finds its method, gives
another visibility than the selected one, and no rule names the trait of the binding. -/
theorem own_trait_only_iff (selected : MethodBinding) :
    m.OwnTraitOnly t key selected
        { selected with visibility := m.visibilityLeft t offers key selected } ↔
      selected.source = .declared ∨ m.OwnRule t key selected.source ∨
        ∀ visibility ∈ m.lastWritten? t offers key, visibility = selected.visibility := by
  rw [OwnTraitOnly, visibilityLeft]
  by_cases declared : selected.source = .declared
  · simp [declared]
  · cases m.lastWritten? t offers key with
    | none => simp [declared]
    | some visibility =>
      simp only [declared, if_false, Option.getD_some, false_or, Option.mem_def,
        Option.some.injEq, forall_eq']
      by_cases kept : visibility = selected.visibility
      · simp [kept]
      · simp [kept]

end CodeModel

namespace Assembly

open CodeModel

variable {calls : List Added}

/-- If types use only types in front of them, what is offered in the end is what was offered. -/
theorem offered_of_before (before : ∀ t ∈ (finished calls).types.toList,
    ∀ u ∈ ((finished calls).usedTraits t).map (·.1), u < t.id) :
    Offered (finished calls) (finished calls).offeredTable :=
  ⟨fun _ => .inl rfl, offered_tidy (acyclic_of_before (finished_numbered calls) before)⟩

/-- Every composed table was made from what the used traits offered, and binds each selected method
with the visibility that the last rule on its name leaves it with, whose method is offered by the
trait that the rule names, or by any if it names none. That changes a method of another trait than a
rule names unless a rule names the trait of the method too or nothing is changed. -/
theorem visibility_rules_after (calls : List Added) :
    ∀ t ∈ (finished calls).types, ∀ table, t.composition = .composed table →
      (∃ tables, Offered (finished calls) tables ∧ (finished calls).tableOf t
        (Offers.gathered tables ((finished calls).usedTraits t)) = .ok table) ∧
      ∀ tables offers, Offered (finished calls) tables →
        offers = Offers.gathered tables ((finished calls).usedTraits t) →
        (finished calls).tableOf t offers = .ok table →
        ∀ name selected,
          MethodTable.get? ((finished calls).chosenTable t offers) name = some selected →
          ∃ binding, MethodTable.get? table name = some binding ∧
            binding = { selected with
              visibility := (finished calls).visibilityLeft t offers (lowercase name) selected } ∧
            ((finished calls).OwnTraitOnly t (lowercase name) selected binding ↔
              selected.source = .declared ∨
                (finished calls).OwnRule t (lowercase name) selected.source ∨
                ∀ visibility ∈ (finished calls).lastWritten? t offers (lowercase name),
                  visibility = selected.visibility) := by
  intro t member table composed
  refine ⟨finished_explained member composed, ?_⟩
  intro tables offers _ offered ok name selected chosen
  have tidy : offers.Tidy := offered ▸ Offers.gathered_tidy _
  exact ⟨_, binding_of_selected tidy ok chosen, rfl, own_trait_only_iff selected⟩

def protectedOther : Added := .source "protected.php"
  "<?php trait A { function f() {} } trait B { function f() {} } class C { use A, B { A::f insteadof B; B::f as protected; } }"

theorem visibility_rules_after_protected : ∃ t ∈ (finished [protectedOther]).type? 2,
    ∃ table, t.composition = .composed table ∧
      MethodTable.get? table "f" = some ⟨"f", 0, .fromTrait 0, .protected_⟩ ∧
      ¬(finished [protectedOther]).OwnTraitOnly t "f"
        ⟨"f", 0, .fromTrait 0, .public_⟩ ⟨"f", 0, .fromTrait 0, .protected_⟩ := by
  have made : (∀ t ∈ (finished [protectedOther]).types.toList,
        ∀ u ∈ ((finished [protectedOther]).usedTraits t).map (·.1), u < t.id) ∧
      lowercase "f" = "f" ∧
      ∃ t ∈ (finished [protectedOther]).type? 2, ∃ table ∈ t.composition.table?,
        t.composition = .composed table ∧
        (finished [protectedOther]).tableOf t ((finished [protectedOther]).offersTo t) =
          .ok table ∧
        MethodTable.get? ((finished [protectedOther]).chosenTable t
          ((finished [protectedOther]).offersTo t)) "f" = some ⟨"f", 0, .fromTrait 0, .public_⟩ ∧
        (finished [protectedOther]).lastWritten? t ((finished [protectedOther]).offersTo t) "f" =
          some .protected_ ∧
        (t.uses.flatMap (·.renames)).map
            (fun rule => (rule.traitName.bind (finished [protectedOther]).resolve).map (·.id)) =
          [some 1] := by
    decide +kernel
  obtain ⟨before, small, t, there, table, -, composed, ok, chosen, written, named⟩ := made
  obtain ⟨binding, found, same, exact'⟩ := (visibility_rules_after [protectedOther] t
    (Array.mem_of_getElem? there) table composed).2 _ ((finished [protectedOther]).offersTo t)
    (offered_of_before before) rfl ok "f" _ chosen
  rw [small] at same exact'
  have value : binding = ⟨"f", 0, .fromTrait 0, .protected_⟩ := by
    rw [same, visibilityLeft, written]
    rfl
  subst value
  refine ⟨t, there, table, composed, found, fun follows => ?_⟩
  rcases exact'.mp follows with declared | ⟨rule, listed, -, name, owner, here, leads, source⟩ | kept
  · cases declared
  · have other := List.mem_map_of_mem (f := fun rule : RenameRule =>
      (rule.traitName.bind (finished [protectedOther]).resolve).map (·.id)) listed
    rw [named, List.mem_singleton, here, Option.bind_some, leads] at other
    have own : owner.id = 0 := (MethodSource.fromTrait.inj source).symm
    cases own.symm.trans (Option.some.inj other)
  · cases kept _ written

end Assembly

end PhpAnalyser
