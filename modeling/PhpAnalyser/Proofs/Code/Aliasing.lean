import PhpAnalyser.Proofs.Code.Settled
/-!
New names that rules give to methods without the name of a trait. A new name leads to the method of
the first trait in the order of use that has one, whatever is selected for the method itself: both
are the same if no rule takes the first trait out and its method gives way to no other.
-/
namespace PhpAnalyser

namespace CodeModel

variable (m : CodeModel)

def selected? (t : TypeDecl) (offers : Offers) (key : String) : Option Offer :=
  m.winner? (m.excludedTypes t key) (offers.ofName key)

/-- The first trait that offers a method is left, and gives way to no other trait. -/
def FirstStands (t : TypeDecl) (offers : Offers) (key : String) : Prop :=
  ∃ first, (offers.ofName key).head? = some first ∧ first.traitId ∉ m.excludedTypes t key ∧
    (m.isAbstractOffer first = false ∨
      m.concretes (m.excludedTypes t key) (offers.ofName key) = [])

/-- A rule without a trait gives a method that its type does not declare a new name, which nothing
else binds. -/
structure SoleAlias (t : TypeDecl) (offers : Offers) (rule : RenameRule) (name : String) : Prop where
  listed : rule ∈ t.uses.flatMap (·.renames)
  unqualified : rule.traitName = none
  named : rule.newName = some name
  undeclared : m.declared? t (lowercase rule.method) = none
  fresh : m.declared? t (lowercase name) = none
  unselected : m.selected? t offers (lowercase name) = none
  only : ∀ other ∈ t.uses.flatMap (·.renames),
    other.newName.map lowercase = some (lowercase name) → (m.ruleOffer? offers other).isSome →
      other = rule

variable {m} {t : TypeDecl} {offers : Offers} {table : MethodTable} {key name : String}
  {rule : RenameRule} {binding : MethodBinding} {trait : Nat}

theorem remaining_cons {removed : List Nat} {first : Offer} {rest : List Offer}
    (left : first.traitId ∉ removed) :
    remaining removed (first :: rest) = first :: remaining removed rest :=
  List.filter_cons_of_pos (by simpa using left)

theorem concretes_cons {removed : List Nat} {first : Offer} {rest : List Offer}
    (left : first.traitId ∉ removed) (whole : m.isAbstractOffer first = false) :
    m.concretes removed (first :: rest) = first :: m.concretes removed rest := by
  rw [concretes, remaining_cons left]
  exact List.filter_cons_of_pos (by simp [whole])

theorem settled_of_selected {offer : Offer} (wins : m.selected? t offers key = some offer) :
    m.choose (m.excludedTypes t key) (offers.ofName key) ≠ .collision := by
  intro collision
  rw [selected?, winner?, collision] at wins
  cases wins

/-- What is selected is left and has a body, unless nothing that is left has one. -/
theorem selected_stands {offer : Offer} (wins : m.selected? t offers key = some offer) :
    offer.traitId ∉ m.excludedTypes t key ∧ (m.isAbstractOffer offer = false ∨
      m.concretes (m.excludedTypes t key) (offers.ofName key) = []) := by
  have settled := settled_of_selected wins
  rw [selected?, winner_of_choice settled] at wins
  rcases Option.or_eq_some_iff.mp wins with whole | ⟨none, left⟩
  · obtain ⟨left, concrete⟩ := List.mem_filter.mp (List.mem_of_mem_head? whole)
    exact ⟨by simpa using (List.mem_filter.mp left).2, .inl (by simpa using concrete)⟩
  · have survives := (List.mem_filter.mp (List.mem_of_mem_head? left)).2
    exact ⟨by simpa using survives, .inr (List.head?_eq_none_iff.mp none)⟩

/-- If the first trait stands, its method is selected. -/
theorem FirstStands.selected (stands : m.FirstStands t offers key) {offer first : Offer}
    (wins : m.selected? t offers key = some offer)
    (leads : (offers.ofName key).head? = some first) : offer = first := by
  have settled := settled_of_selected wins
  obtain ⟨first', leads', left, concrete⟩ := stands
  cases leads.symm.trans leads'
  rw [selected?, winner_of_choice settled] at wins
  obtain ⟨rest, offered⟩ := List.head?_eq_some_iff.mp leads
  rw [offered] at wins concrete
  rcases concrete with whole | none
  · rw [concretes_cons left whole] at wins
    exact (Option.some.inj wins).symm
  · rw [none, remaining_cons left] at wins
    exact (Option.some.inj wins).symm

/-- A method that a table has from a trait is the one that is selected. -/
theorem Composes.from_trait (composes : m.Composes t offers table)
    (found : SortedMap.find? table key = some binding) (source : binding.source = .fromTrait trait) :
    ∃ offer, m.selected? t offers key = some offer ∧ binding.method = offer.binding.method ∧
      trait = offer.traitId := by
  rcases composes.only key binding found with own | ⟨-, ⟨old, lent, revised⟩ | ⟨-, offer, -, made⟩⟩
  · cases (source_of_declared own).symm.trans source
  · rw [lent?] at lent
    split at lent
    · cases lent
    obtain ⟨offer, wins, rfl⟩ := Option.map_eq_some_iff.mp lent
    have same : MethodSource.fromTrait trait = .fromTrait offer.traitId :=
      source.symm.trans revised.source
    exact ⟨offer, wins, revised.method, MethodSource.fromTrait.inj same⟩
  · cases made.source.symm.trans source

/-- A name that only one rule binds leads to the method of the first trait that has it. -/
theorem SoleAlias.first (alone : m.SoleAlias t offers rule name)
    (composes : m.Composes t offers table) {first : Offer}
    (leads : (offers.ofName (lowercase rule.method)).head? = some first) :
    ∃ new, SortedMap.find? table (lowercase name) = some new ∧ AliasOf first new := by
  have offered : m.ruleOffer? offers rule = some first := by
    rw [ruleOffer?, alone.unqualified]
    exact leads
  have aliases : m.Aliases t offers (lowercase name) first :=
    ⟨rule, alone.listed, name, alone.named, rfl, offered⟩
  obtain ⟨new, found⟩ := Option.isSome_iff_exists.mp (composes.aliased _ _ aliases)
  refine ⟨new, found, ?_⟩
  rcases composes.only _ new found with own | ⟨-, ⟨old, lent, -⟩ | ⟨-, offer, made, of⟩⟩
  · rw [find_own_none _ alone.fresh] at own
    cases own
  · rw [lent?] at lent
    split at lent
    · cases lent
    · have unselected := alone.unselected
      rw [selected?] at unselected
      rw [unselected] at lent
      cases lent
  · obtain ⟨other, listed, name', named, same, offered'⟩ := made
    have one := alone.only other listed (by rw [named, Option.map_some, same])
      (Option.isSome_of_eq_some offered')
    rw [one, offered] at offered'
    cases offered'
    exact of

/-- A trait offers a name once. -/
theorem provider_unique {tables : Nat → MethodTable} (tidy : ∀ id, (tables id).Tidy)
    {used : List (Nat × Nat)} {a b : Offer} (first : a ∈ (Offers.gathered tables used).ofName key)
    (second : b ∈ (Offers.gathered tables used).ofName key) (same : a.traitId = b.traitId) :
    a.binding = b.binding := by
  have provided {o : Offer} (offered : o ∈ (Offers.gathered tables used).ofName key) :
      SortedMap.find? (tables o.traitId) key = some o.binding := by
    have listed : o.provider ∈ Offers.providers tables used key := by
      rw [← Offers.of_name_gathered tidy]
      exact List.mem_map_of_mem offered
    exact (Offers.mem_providers.mp listed).2
  have there := provided first
  rw [same, provided second] at there
  exact (Option.some.inj there).symm

/-- A new name without a trait leads to the first trait that has the method. That is the selected
one if the first trait stands, and only then. -/
theorem alias_of_first {tables : Nat → MethodTable} (tidy : ∀ id, (tables id).Tidy)
    (offered : offers = Offers.gathered tables (m.usedTraits t))
    (composes : m.Composes t offers table) (alone : m.SoleAlias t offers rule name)
    (found : SortedMap.find? table (lowercase rule.method) = some binding)
    (source : binding.source = .fromTrait trait) :
    ∃ first new, (offers.ofName (lowercase rule.method)).head? = some first ∧
      SortedMap.find? table (lowercase name) = some new ∧ AliasOf first new ∧
      (new.method = binding.method ∧ new.source = .renamed trait ↔
        m.FirstStands t offers (lowercase rule.method)) := by
  obtain ⟨offer, wins, method, rfl⟩ := composes.from_trait found source
  have member : offer ∈ offers.ofName (lowercase rule.method) := winner_mem wins
  obtain ⟨first, leads⟩ := Option.isSome_iff_exists.mp
    (List.isSome_head?.mpr (List.ne_nil_of_mem member))
  obtain ⟨new, bound, made⟩ := alone.first composes leads
  refine ⟨first, new, leads, bound, made, ?_, ?_⟩
  · rintro ⟨-, same⟩
    have trait : first.traitId = offer.traitId :=
      MethodSource.renamed.inj (made.source.symm.trans same)
    obtain ⟨left, concrete⟩ := selected_stands wins
    have one : first.binding = offer.binding := by
      rw [offered] at leads member
      exact provider_unique tidy (List.mem_of_mem_head? leads) member trait
    rw [isAbstractOffer, ← one] at concrete
    exact ⟨first, leads, trait ▸ left, concrete⟩
  · intro stands
    cases stands.selected wins leads
    exact ⟨made.method.trans method.symm, made.source⟩

end CodeModel

namespace Assembly

open CodeModel

/-- Every composed table was made from what the used traits offered, and a name that only a rule
without a trait binds then leads to the first trait in the order of use that has the method. This is
the method and the trait that composition selected for the method itself if no rule takes the first
trait out and no method with a body stands behind an abstract one of it, and only then. -/
theorem unqualified_alias_after (calls : List Added) :
    ∀ t ∈ (finished calls).types, ∀ table, t.composition = .composed table →
      (∃ tables, Offered (finished calls) tables ∧ (finished calls).tableOf t
        (Offers.gathered tables ((finished calls).usedTraits t)) = .ok table) ∧
      ∀ tables offers, Offered (finished calls) tables →
        offers = Offers.gathered tables ((finished calls).usedTraits t) →
        (finished calls).tableOf t offers = .ok table →
        ∀ rule name binding trait, (finished calls).SoleAlias t offers rule name →
          MethodTable.get? table rule.method = some binding → binding.source = .fromTrait trait →
          ∃ first new, (offers.ofName (lowercase rule.method)).head? = some first ∧
            MethodTable.get? table name = some new ∧ AliasOf first new ∧
            (new.method = binding.method ∧ new.source = .renamed trait ↔
              (finished calls).FirstStands t offers (lowercase rule.method)) := by
  intro t member table composed
  refine ⟨finished_explained member composed, ?_⟩
  intro tables offers shown offered ok rule name binding trait alone found source
  have tidy : offers.Tidy := offered ▸ Offers.gathered_tidy _
  exact alias_of_first shown.tidy offered (table_of_ok tidy ok) alone found source

/-- Two traits with a method of one name, and a class that keeps that of the second and gives it
another name, but gets that of the first under it. -/
def secondKept : Added := .source "second.php"
  "<?php trait A { function f() {} } trait B { function f() {} } class C { use A, B { B::f insteadof A; f as g; } }"

def keepingClass : TypeDecl := (finished [secondKept]).types.toList.getLast (by decide +kernel)

def keptTable : MethodTable := keepingClass.composition.table?.getD []

def keptOffers : Offers := (finished [secondKept]).offersTo keepingClass

def keptRule : RenameRule := ⟨none, "f", none, some "g"⟩

theorem unqualified_alias_after_second_kept :
    (MethodTable.get? keptTable "f").map (·.source) = some (.fromTrait 1) ∧
      (MethodTable.get? keptTable "g").map (·.source) = some (.renamed 0) ∧
      ¬(finished [secondKept]).FirstStands keepingClass keptOffers "f" := by
  have made : (∀ t ∈ (finished [secondKept]).types.toList,
        ∀ u ∈ ((finished [secondKept]).usedTraits t).map (·.1), u < t.id) ∧
      keepingClass.composition = .composed keptTable ∧
      (finished [secondKept]).tableOf keepingClass keptOffers = .ok keptTable ∧
      (keptOffers.ofName "f").head? = some ⟨0, ⟨"f", 0, .declared, .public_⟩, 0⟩ ∧
      MethodTable.get? keptTable "f" = some ⟨"f", 1, .fromTrait 1, .public_⟩ ∧
      keepingClass.uses.flatMap (·.renames) = [keptRule] ∧
      (finished [secondKept]).declared? keepingClass "f" = none ∧
      (finished [secondKept]).declared? keepingClass "g" = none ∧
      (finished [secondKept]).selected? keepingClass keptOffers "g" = none := by
    decide +kernel
  obtain ⟨before, composed, ok, leads, found, rules, undeclared, fresh, unselected⟩ := made
  have offered : Offered (finished [secondKept]) (finished [secondKept]).offeredTable :=
    ⟨fun _ => .inl rfl, offered_tidy (acyclic_of_before (finished_numbered [secondKept]) before)⟩
  have member : keepingClass ∈ (finished [secondKept]).types :=
    Array.mem_toList_iff.mp (List.getLast_mem _)
  have alone : (finished [secondKept]).SoleAlias keepingClass keptOffers keptRule "g" := by
    refine ⟨by simp [rules], rfl, rfl, undeclared, fresh, unselected, fun other listed _ _ => ?_⟩
    rw [rules] at listed
    exact List.mem_singleton.mp listed
  obtain ⟨first, new, leads', bound, of, same⟩ := (unqualified_alias_after [secondKept] keepingClass
    member keptTable composed).2 _ _ offered rfl ok keptRule "g" _ 1 alone found rfl
  cases leads.symm.trans leads'
  refine ⟨?_, ?_, fun stands => ?_⟩
  · rw [found]
    rfl
  · rw [bound, Option.map_some, of.source]
  · cases of.source.symm.trans (same.mpr stands).2

end Assembly

end PhpAnalyser
