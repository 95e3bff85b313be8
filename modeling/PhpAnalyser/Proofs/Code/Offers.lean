import Mathlib.Data.List.Induction
import PhpAnalyser.Code.Composition
import PhpAnalyser.Code.MethodTable
import PhpAnalyser.Proofs.Code.Index
import PhpAnalyser.Proofs.Text.Case
import PhpAnalyser.Proofs.Text.SortedMap
/-!
What a table of methods binds behind each change: every binding stands under the lowercase of its
name. And what the used traits offer to a type: under each name the traits that have it, each once,
in the order in which they are used.
-/
namespace PhpAnalyser

namespace MethodTable

variable {t : MethodTable} {binding : MethodBinding}

structure Tidy (t : MethodTable) : Prop where
  ordered : SortedMap.Ordered t
  keys : ∀ entry ∈ t, entry.1 = lowercase entry.2.name

theorem Tidy.nil : Tidy [] := ⟨.nil, by simp⟩

theorem Tidy.put {key : String} (tidy : Tidy t) (same : key = lowercase binding.name) :
    Tidy (SortedMap.put t key binding) where
  ordered := tidy.ordered.put key binding
  keys entry member := by
    rcases SortedMap.mem_put member with rfl | old
    · exact same
    · exact tidy.keys entry old

theorem Tidy.key {key : String} (tidy : Tidy t) (found : SortedMap.find? t key = some binding) :
    key = lowercase binding.name :=
  tidy.keys _ ((tidy.ordered.mem_iff key binding).mpr found)

/-! #### Changes -/

theorem find_add (t : MethodTable) (binding : MethodBinding) (key : String) :
    SortedMap.find? (add t binding) key = (SortedMap.find? t key).or
      (if key = lowercase binding.name then some binding else none) := by
  rw [add]
  split
  next bound =>
    split
    next same =>
      rw [same]
      obtain ⟨old, found⟩ := Option.isSome_iff_exists.mp bound
      rw [get?] at found
      rw [found]
      rfl
    · rw [Option.or_none]
  next unbound =>
    rw [SortedMap.find_put]
    split
    next same =>
      rw [binds, get?, Bool.not_eq_true, Option.isSome_eq_false_iff, Option.isNone_iff_eq_none]
        at unbound
      rw [same, unbound]
      rfl
    · rw [Option.or_none]

theorem Tidy.add (tidy : Tidy t) (binding : MethodBinding) : Tidy (MethodTable.add t binding) := by
  rw [MethodTable.add]
  split
  · exact tidy
  · exact tidy.put rfl

/-- What a table binds once several bindings were added. -/
theorem find_add_all (t : MethodTable) (added : List MethodBinding) (key : String) :
    SortedMap.find? (added.foldl add t) key = (SortedMap.find? t key).or
      (added.find? fun binding => key = lowercase binding.name) := by
  induction added generalizing t with
  | nil => rw [List.foldl_nil, List.find?_nil, Option.or_none]
  | cons binding added ih =>
    rw [List.foldl_cons, ih, find_add, Option.or_assoc, List.find?_cons]
    by_cases same : key = lowercase binding.name
    · simp [same]
    · simp [same]

theorem Tidy.add_all (tidy : Tidy t) (added : List MethodBinding) : Tidy (added.foldl .add t) := by
  induction added generalizing t with
  | nil => exact tidy
  | cons binding added ih => exact ih (tidy.add binding)

/-- A change of visibility leaves everything else, and all that is declared. -/
theorem find_set_visibility (t : MethodTable) (name : String) (visibility : Visibility)
    (key : String) :
    SortedMap.find? (setVisibility t name visibility) key =
      (SortedMap.find? t key).map fun binding =>
        if key = lowercase name ∧ binding.source ≠ .declared then { binding with visibility }
        else binding := by
  have elsewhere (apart : key ≠ lowercase name) : SortedMap.find? t key =
      (SortedMap.find? t key).map fun binding =>
        if key = lowercase name ∧ binding.source ≠ .declared then { binding with visibility }
        else binding := by
    simp [apart]
  rw [setVisibility]
  split
  next unbound =>
    by_cases same : key = lowercase name
    · rw [same]
      rw [get?] at unbound
      rw [unbound]
      rfl
    · exact elsewhere same
  next binding found =>
    rw [get?] at found
    by_cases same : key = lowercase name
    · subst same
      split
      next declared => simp [found, declared]
      next other => simp [found, other, SortedMap.find_put]
    · split
      · exact elsewhere same
      · rw [SortedMap.find_put, if_neg same]
        exact elsewhere same

theorem Tidy.set_visibility (tidy : Tidy t) (name : String) (visibility : Visibility) :
    Tidy (MethodTable.setVisibility t name visibility) := by
  rw [MethodTable.setVisibility]
  split
  · exact tidy
  next binding found =>
    split
    · exact tidy
    · exact tidy.put (show lowercase name = lowercase binding.name from tidy.key found)

end MethodTable

namespace Offers

variable {offers : Offers} {table : MethodTable}

/-- One more offer of a name, unless the trait has offered it already. -/
def joined (known : List Offer) (offer : Offer) : List Offer :=
  if known.any (·.traitId = offer.traitId) then known else known ++ [offer]

theorem of_name_cons (entry : String × List Offer) (offers : Offers) (key : String) :
    ofName (entry :: offers) key = if key = entry.1 then entry.2 else offers.ofName key := by
  obtain ⟨name, known⟩ := entry
  by_cases same : key = name
  · simp [ofName, same]
  · have other : (key == name) = false := by simpa using same
    simp [ofName, List.lookup_cons, other, same]

theorem of_name_add (offers : Offers) (key other : String) (offer : Offer) :
    (offers.add key offer).ofName other =
      if other = key then joined (offers.ofName key) offer else offers.ofName other := by
  induction offers with
  | nil =>
    rw [add, of_name_cons]
    rfl
  | cons entry rest ih =>
    obtain ⟨name, known⟩ := entry
    rw [add]
    split
    next same =>
      subst same
      simp only [of_name_cons, if_true]
      by_cases first : other = name
      · rw [if_pos first, if_pos first]
        rfl
      · rw [if_neg first, if_neg first, if_neg first]
    next apart =>
      rw [of_name_cons, of_name_cons, of_name_cons, ih, if_neg (Ne.symm apart)]
      by_cases first : other = name
      · rw [if_pos first, if_neg fun same => apart (first.symm.trans same), if_pos first]
      · rw [if_neg first, if_neg first]

theorem mem_add {key : String} {offer : Offer} {entry : String × List Offer}
    (member : entry ∈ offers.add key offer) :
    entry ∈ offers ∨ entry = (key, joined (offers.ofName key) offer) := by
  induction offers with
  | nil => exact .inr (List.mem_singleton.mp member)
  | cons first rest ih =>
    obtain ⟨name, known⟩ := first
    rw [add] at member
    rw [of_name_cons]
    split at member
    next same =>
      subst same
      rcases List.mem_cons.mp member with here | behind
      · right
        rw [here, if_pos rfl]
        rfl
      · exact .inl (List.mem_cons_of_mem _ behind)
    next apart =>
      rw [if_neg (Ne.symm apart)]
      rcases List.mem_cons.mp member with here | behind
      · exact .inl (here ▸ List.mem_cons_self)
      · exact (ih behind).imp_left (List.mem_cons_of_mem _)

theorem keys_add (offers : Offers) (key : String) (offer : Offer) :
    (offers.add key offer).map (·.1) =
      if key ∈ offers.map (·.1) then offers.map (·.1) else offers.map (·.1) ++ [key] := by
  induction offers with
  | nil => rfl
  | cons entry rest ih =>
    obtain ⟨name, known⟩ := entry
    rw [add]
    split
    next same => simp [same]
    next apart =>
      rw [List.map_cons, List.map_cons, ih]
      by_cases later : key ∈ rest.map (·.1)
      · rw [if_pos later, if_pos (List.mem_cons_of_mem _ later)]
      · rw [if_neg later, if_neg fun member => (List.mem_cons.mp member).elim
          (fun same => apart same.symm) later]
        rfl

theorem mem_of_name {key : String} {offer : Offer} (offered : offer ∈ offers.ofName key) :
    (key, offers.ofName key) ∈ offers := by
  induction offers with
  | nil => cases offered
  | cons entry rest ih =>
    rw [of_name_cons] at offered ⊢
    split at offered
    next same =>
      rw [if_pos same, same]
      exact List.mem_cons_self
    next apart =>
      rw [if_neg apart]
      exact List.mem_cons_of_mem _ (ih offered)

def Every (condition : String → Offer → Prop) (offers : Offers) : Prop :=
  ∀ entry ∈ offers, ∀ offer ∈ entry.2, condition entry.1 offer

namespace Every

variable {condition : String → Offer → Prop}

theorem nil : Every condition [] := nofun

theorem of_name (every : Every condition offers) {key : String} {offer : Offer}
    (offered : offer ∈ offers.ofName key) : condition key offer :=
  every _ (mem_of_name offered) offer offered

theorem add (every : Every condition offers) {key : String} {offer : Offer}
    (meets : condition key offer) : Every condition (offers.add key offer) := by
  intro entry member other offered
  rcases mem_add member with old | rfl
  · exact every entry old other offered
  · rw [joined] at offered
    split at offered
    · exact every.of_name offered
    · rcases List.mem_append.mp offered with known | new
      · exact every.of_name known
      · exact List.mem_singleton.mp new ▸ meets

theorem add_table (every : Every condition offers) {traitId clause : Nat}
    (meets : ∀ binding ∈ table.bindings, condition (lowercase binding.name)
      ⟨traitId, binding, clause⟩) : Every condition (offers.addTable traitId clause table) := by
  rw [addTable]
  generalize table.bindings = added at meets
  induction added generalizing offers with
  | nil => exact every
  | cons binding added ih =>
    exact ih (every.add (meets binding List.mem_cons_self))
      fun other member => meets other (List.mem_cons_of_mem _ member)

end Every

structure Tidy (offers : Offers) : Prop where
  apart : (offers.map (·.1)).Nodup
  present : ∀ entry ∈ offers, entry.2 ≠ []
  named : Every (fun key offer => key = lowercase offer.binding.name) offers

namespace Tidy

theorem nil : Tidy [] := ⟨.nil, nofun, .nil⟩

theorem add (tidy : Tidy offers) (offer : Offer) :
    Tidy (offers.add (lowercase offer.binding.name) offer) where
  apart := by
    rw [keys_add]
    split
    · exact tidy.apart
    next new =>
      rw [List.nodup_append]
      refine ⟨tidy.apart, List.nodup_singleton _, fun key listed other last => ?_⟩
      rintro rfl
      exact new (List.mem_singleton.mp last ▸ listed)
  present entry member := by
    rcases mem_add member with old | rfl
    · exact tidy.present entry old
    · rw [joined]
      split
      next known =>
        obtain ⟨other, listed, -⟩ := List.any_eq_true.mp known
        exact List.ne_nil_of_mem listed
      · exact List.concat_ne_nil _ _
  named := tidy.named.add rfl

theorem add_table (tidy : Tidy offers) (traitId clause : Nat) (table : MethodTable) :
    Tidy (offers.addTable traitId clause table) := by
  rw [addTable]
  generalize table.bindings = added
  induction added generalizing offers with
  | nil => exact tidy
  | cons binding added ih => exact ih (tidy.add ⟨traitId, binding, clause⟩)

/-- The names that are offered are in lowercase. -/
theorem key (tidy : Tidy offers) {entry : String × List Offer} (member : entry ∈ offers) :
    lowercase entry.1 = entry.1 := by
  obtain ⟨offer, offered⟩ := List.exists_mem_of_ne_nil _ (tidy.present entry member)
  rw [tidy.named entry member offer offered, lowercase_lowercase]

theorem of_mem (tidy : Tidy offers) {entry : String × List Offer} (member : entry ∈ offers) :
    offers.ofName entry.1 = entry.2 := by
  rw [ofName, lookup_of_mem tidy.apart member]
  rfl

end Tidy

/-- A table adds the binding of a name to what is known of the name. -/
theorem of_name_add_table (tidy : table.Tidy) (offers : Offers) (traitId clause : Nat)
    (key : String) :
    (offers.addTable traitId clause table).ofName key =
      match SortedMap.find? table key with
      | some binding => joined (offers.ofName key) ⟨traitId, binding, clause⟩
      | none => offers.ofName key := by
  rw [addTable, MethodTable.bindings]
  obtain ⟨ordered, keys⟩ := tidy
  induction table generalizing offers with
  | nil => rfl
  | cons entry rest ih =>
    obtain ⟨above, behind⟩ := List.pairwise_cons.mp ordered
    rw [List.map_cons, List.foldl_cons, ih _ behind fun other member => keys other
      (List.mem_cons_of_mem _ member), ← keys entry List.mem_cons_self, of_name_add,
      SortedMap.find_cons]
    by_cases same : key = entry.1
    · have none : SortedMap.find? rest key = none := by
        rw [Option.eq_none_iff_forall_not_mem]
        intro binding found
        have less := above _ ((SortedMap.Ordered.mem_iff behind key binding).mpr found)
        exact absurd same (ne_of_gt less)
      rw [none, if_pos same, if_pos same, same]
    · rw [if_neg same, if_neg same]

def gathered (table : Nat → MethodTable) (used : List (Nat × Nat)) : Offers :=
  used.foldl (fun offers u => offers.addTable u.1 u.2 (table u.1)) []

def providers (table : Nat → MethodTable) (used : List (Nat × Nat)) (key : String) :
    List (Nat × MethodBinding) :=
  (used.map (·.1)).eraseDups.filterMap fun t => (SortedMap.find? (table t) key).map (t, ·)

end Offers

def Offer.provider (offer : Offer) : Nat × MethodBinding := (offer.traitId, offer.binding)

namespace Offers

variable {table : Nat → MethodTable}

theorem gathered_append (used : List (Nat × Nat)) (u : Nat × Nat) :
    gathered table (used ++ [u]) = (gathered table used).addTable u.1 u.2 (table u.1) := by
  rw [gathered, List.foldl_append]
  rfl

theorem gathered_tidy (used : List (Nat × Nat)) : Tidy (gathered table used) := by
  induction used using List.reverseRecOn with
  | nil => exact .nil
  | append_singleton used u ih =>
    rw [gathered_append]
    exact ih.add_table ..

theorem mem_providers {used : List (Nat × Nat)} {key : String} {p : Nat × MethodBinding} :
    p ∈ providers table used key ↔
      p.1 ∈ used.map (·.1) ∧ SortedMap.find? (table p.1) key = some p.2 := by
  obtain ⟨t, binding⟩ := p
  simp only [providers, List.mem_filterMap, List.mem_eraseDups, Option.map_eq_some_iff,
    Prod.mk.injEq]
  constructor
  · rintro ⟨_, used, _, found, rfl, rfl⟩
    exact ⟨used, found⟩
  · rintro ⟨used, found⟩
    exact ⟨t, used, binding, found, rfl, rfl⟩

/-- Under each name stand the traits that have it. -/
theorem of_name_gathered (tidy : ∀ t, (table t).Tidy) (used : List (Nat × Nat)) (key : String) :
    ((gathered table used).ofName key).map Offer.provider = providers table used key := by
  induction used using List.reverseRecOn with
  | nil => rfl
  | append_singleton used u ih =>
    have known : (((gathered table used).ofName key).any (·.traitId = u.1)) =
        (providers table used key).any (·.1 = u.1) := by
      rw [← ih, List.any_map]
      rfl
    rw [gathered_append, of_name_add_table (tidy u.1)]
    rw [providers, List.map_append, List.eraseDups_append, List.filterMap_append, ← providers]
    by_cases before : u.1 ∈ used.map (·.1)
    · have none : (List.removeAll [u.1] (used.map (·.1))) = [] := by
        simpa [List.removeAll] using before
      rw [List.map_singleton, none]
      simp only [List.eraseDups_nil, List.filterMap_nil, List.append_nil]
      cases found : SortedMap.find? (table u.1) key with
      | none => exact ih
      | some binding =>
        have listed : (u.1, binding) ∈ providers table used key :=
          mem_providers.mpr ⟨before, found⟩
        have again : (providers table used key).any (·.1 = u.1) = true :=
          List.any_eq_true.mpr ⟨_, listed, decide_eq_true rfl⟩
        simp only [joined, known, again, if_true]
        exact ih
    · have new : (List.removeAll [u.1] (used.map (·.1))) = [u.1] := by
        simpa [List.removeAll] using before
      rw [List.map_singleton, new]
      cases found : SortedMap.find? (table u.1) key with
      | none => simp [List.eraseDups_cons, found, ih]
      | some binding =>
        have first : (providers table used key).any (·.1 = u.1) = false := by
          rw [List.any_eq_false]
          intro p listed same
          exact before (of_decide_eq_true same ▸ (mem_providers.mp listed).1)
        simp [joined, known, first, List.eraseDups_cons, found, ih, Offer.provider]

theorem joined_once {known : List Offer} (once : (known.map (·.traitId)).Nodup) (offer : Offer) :
    ((joined known offer).map (·.traitId)).Nodup := by
  rw [joined]
  split
  · exact once
  next new =>
    rw [List.map_append, List.nodup_append]
    refine ⟨once, List.nodup_singleton _, fun id listed other last same => new ?_⟩
    obtain ⟨earlier, member, rfl⟩ := List.mem_map.mp listed
    rw [List.mem_singleton.mp last] at same
    exact List.any_eq_true.mpr ⟨earlier, member, decide_eq_true same⟩

/-- A trait offers a name once, however often it is used. -/
theorem traits_once (tidy : ∀ t, (table t).Tidy) (used : List (Nat × Nat)) (key : String) :
    (((gathered table used).ofName key).map (·.traitId)).Nodup := by
  induction used using List.reverseRecOn with
  | nil => exact .nil
  | append_singleton used u ih =>
    rw [gathered_append, of_name_add_table (tidy u.1)]
    cases SortedMap.find? (table u.1) key with
    | none => exact ih
    | some binding => exact joined_once ih _

/-- What a used trait binds under a name is offered, and nothing else. -/
theorem mem_of_name_gathered (tidy : ∀ t, (table t).Tidy) {used : List (Nat × Nat)} {key : String}
    {p : Nat × MethodBinding} :
    (∃ offer ∈ (gathered table used).ofName key, offer.provider = p) ↔
      p.1 ∈ used.map (·.1) ∧ SortedMap.find? (table p.1) key = some p.2 := by
  rw [← mem_providers, ← of_name_gathered tidy, List.mem_map]

theorem Every.gathered {condition : String → Offer → Prop} {table : Nat → MethodTable}
    {used : List (Nat × Nat)} (meets : ∀ u ∈ used, ∀ binding ∈ (table u.1).bindings,
      condition (lowercase binding.name) ⟨u.1, binding, u.2⟩) :
    (Offers.gathered table used).Every condition := by
  induction used using List.reverseRecOn with
  | nil => exact .nil
  | append_singleton used u ih =>
    rw [gathered_append]
    refine (ih fun v member => meets v (List.mem_append_left _ member)).add_table ?_
    exact meets u (List.mem_append_right _ (List.mem_singleton.mpr rfl))

end Offers

end PhpAnalyser
