import PhpAnalyser.Proofs.Code.Offers
/-!
The table that a type gets from what it declares and from what is offered to it, name by name.
-/
namespace PhpAnalyser

namespace CodeModel

variable (m : CodeModel)

def remaining (removed : List Nat) (offers : List Offer) : List Offer :=
  offers.filter fun offer => !removed.contains offer.traitId

def concretes (removed : List Nat) (offers : List Offer) : List Offer :=
  (remaining removed offers).filter fun offer => !m.isAbstractOffer offer

def winner? (removed : List Nat) (offers : List Offer) : Option Offer :=
  match m.choose removed offers with
  | .chosen offer => some offer
  | _ => none

variable {m}

theorem choose_collision {removed : List Nat} {offers : List Offer} :
    m.choose removed offers = .collision ↔
      2 ≤ (m.concretes removed offers).length ∨
        2 ≤ offers.length ∧ remaining removed offers = [] := by
  rw [choose, concretes, ← remaining]
  cases remaining removed offers with
  | nil => by_cases many : 1 < offers.length <;> simp [many, Nat.succ_le_iff]
  | cons first rest =>
    dsimp only
    match (first :: rest).filter fun offer => !m.isAbstractOffer offer with
    | [] => simp
    | [_] => simp
    | _ :: _ :: _ => simp

theorem winner_of_choice {removed : List Nat} {offers : List Offer}
    (settled : m.choose removed offers ≠ .collision) :
    m.winner? removed offers =
      (m.concretes removed offers).head?.or (remaining removed offers).head? := by
  rw [winner?, concretes]
  rw [choose, ← remaining] at settled ⊢
  generalize remaining removed offers = kept at settled ⊢
  cases kept with
  | nil =>
    by_cases many : 1 < offers.length
    · simp [many] at settled
    · simp [many]
  | cons first rest =>
    dsimp only at settled ⊢
    generalize (first :: rest).filter (fun offer => !m.isAbstractOffer offer) = whole at settled ⊢
    match whole with
    | [] => rfl
    | [only] => rfl
    | _ :: _ :: _ => exact absurd rfl settled

theorem choose_nil (removed : List Nat) : m.choose removed [] = .excluded := rfl

theorem winner_mem {removed : List Nat} {offers : List Offer} {offer : Offer}
    (wins : m.winner? removed offers = some offer) : offer ∈ offers := by
  have settled : m.choose removed offers ≠ .collision := by
    intro collision
    rw [winner?, collision] at wins
    cases wins
  rw [winner_of_choice settled] at wins
  rcases Option.or_eq_some_iff.mp wins with found | ⟨-, found⟩
  · exact (List.mem_filter.mp (List.mem_filter.mp (List.mem_of_mem_head? found)).1).1
  · exact (List.mem_filter.mp (List.mem_of_mem_head? found)).1

theorem mem_concretes {removed : List Nat} {offers : List Offer} {offer : Offer} :
    offer ∈ m.concretes removed offers ↔
      offer ∈ offers ∧ offer.traitId ∉ removed ∧ m.isAbstractOffer offer = false := by
  simp only [concretes, remaining, List.mem_filter, List.contains_eq_mem, Bool.not_eq_true',
    decide_eq_false_iff_not, and_assoc]

theorem remaining_eq_nil {removed : List Nat} {offers : List Offer} :
    remaining removed offers = [] ↔ ∀ offer ∈ offers, offer.traitId ∈ removed := by
  simp only [remaining, List.filter_eq_nil_iff, List.contains_eq_mem, Bool.not_eq_true',
    decide_eq_false_iff_not, not_not]

/-- Where the choice is settled, something is chosen if an offer is left. -/
theorem winner_is_some {removed : List Nat} {offers : List Offer}
    (settled : m.choose removed offers ≠ .collision) :
    (m.winner? removed offers).isSome ↔ remaining removed offers ≠ [] := by
  rw [winner_of_choice settled]
  constructor
  · intro some none
    rw [concretes, none] at some
    cases some
  · intro left
    rw [Option.isSome_or, Bool.or_eq_true]
    exact .inr (List.isSome_head?.mpr left)

/-- Where the choice is settled, an offer with a body that is left is the one that is chosen. -/
theorem winner_of_concrete {removed : List Nat} {offers : List Offer} {offer : Offer}
    (settled : m.choose removed offers ≠ .collision) (kept : offer ∈ m.concretes removed offers) :
    m.winner? removed offers = some offer := by
  have few : (m.concretes removed offers).length ≤ 1 := by
    by_contra many
    exact settled (choose_collision.mpr (.inl (Nat.lt_of_not_le many)))
  rw [winner_of_choice settled]
  match m.concretes removed offers, kept, few with
  | [only], kept, _ =>
    rw [List.mem_singleton.mp kept]
    rfl

def ownBinding (c : Callable) : MethodBinding := ⟨c.name, c.id, .declared, c.visibility⟩

theorem declared_table_eq (t : TypeDecl) :
    m.declaredTable t = ((m.methodsOf t).map ownBinding).foldl MethodTable.add [] := by
  rw [List.foldl_map]
  rfl

theorem declared_tidy (t : TypeDecl) : (m.declaredTable t).Tidy := by
  rw [declared_table_eq]
  exact MethodTable.Tidy.nil.add_all _

theorem find_declared (t : TypeDecl) (key : String) :
    SortedMap.find? (m.declaredTable t) key =
      ((m.methodsOf t).find? fun c => key = lowercase c.name).map ownBinding := by
  rw [declared_table_eq, MethodTable.find_add_all, List.find?_map]
  rfl

theorem binds_declared {t : TypeDecl} {key : String} (small : lowercase key = key) :
    MethodTable.binds (m.declaredTable t) key = (SortedMap.find? (m.declaredTable t) key).isSome := by
  rw [MethodTable.binds, MethodTable.get?, small]

def lentBinding (offer : Offer) : MethodBinding :=
  { offer.binding with source := .fromTrait offer.traitId }

def lent? (t : TypeDecl) (entry : String × List Offer) : Option MethodBinding :=
  if MethodTable.binds (m.declaredTable t) entry.1 then none
  else (m.winner? (m.excludedTypes t entry.1) entry.2).map lentBinding

def chosenTable (t : TypeDecl) (offers : Offers) : MethodTable :=
  ((m.choices t offers).map (·.2)).foldl addChosen (m.declaredTable t)

theorem chosen_fold (t : TypeDecl) (offers : Offers) (table : MethodTable) :
    ((m.choices t offers).map (·.2)).foldl addChosen table =
      (offers.filterMap (m.lent? t)).foldl MethodTable.add table := by
  rw [choices]
  induction offers generalizing table with
  | nil => rfl
  | cons entry rest ih =>
    cases declared : MethodTable.binds (m.declaredTable t) entry.1 with
    | true =>
      rw [List.filter_cons_of_neg (by simp [declared]),
        List.filterMap_cons_none (by simp [lent?, declared])]
      exact ih table
    | false =>
      rw [List.filter_cons_of_pos (by simp [declared]), List.map_cons, List.map_cons,
        List.foldl_cons]
      cases choice : m.choose (m.excludedTypes t entry.1) entry.2 with
      | chosen offer =>
        have lent : m.lent? t entry = some (lentBinding offer) := by
          simp [lent?, declared, winner?, choice]
        rw [List.filterMap_cons_some lent]
        exact ih _
      | excluded =>
        rw [List.filterMap_cons_none (by simp [lent?, declared, winner?, choice])]
        exact ih table
      | collision =>
        rw [List.filterMap_cons_none (by simp [lent?, declared, winner?, choice])]
        exact ih table

variable {offers : Offers} {t : TypeDecl}

theorem name_of_lent (named : offers.Tidy) {entry : String × List Offer} {binding : MethodBinding}
    (member : entry ∈ offers) (lent : m.lent? t entry = some binding) :
    entry.1 = lowercase binding.name := by
  rw [lent?] at lent
  split at lent
  · cases lent
  · obtain ⟨offer, wins, rfl⟩ := Option.map_eq_some_iff.mp lent
    exact named.named entry member offer (winner_mem wins)

/-- A search among what the entries of a list give, where only the entry of one key can give what
is searched for. -/
theorem find_given {α β : Type} {entries : List (String × α)} {give : String × α → Option β}
    {wanted : β → Bool} {key : String} (apart : (entries.map (·.1)).Nodup)
    (only : ∀ entry ∈ entries, ∀ b, give entry = some b → (wanted b = true ↔ key = entry.1)) :
    (entries.filterMap give).find? wanted = (entries.lookup key).bind fun known => give (key, known) := by
  induction entries with
  | nil => rfl
  | cons entry rest ih =>
    obtain ⟨name, known⟩ := entry
    obtain ⟨new, apart⟩ := List.nodup_cons.mp apart
    have rest_only : ∀ entry ∈ rest, ∀ b, give entry = some b → (wanted b = true ↔ key = entry.1) :=
      fun entry member => only entry (List.mem_cons_of_mem _ member)
    have later := ih apart rest_only
    by_cases same : key = name
    · subst same
      have none : rest.lookup key = none := by
        rw [List.lookup_eq_none_iff]
        intro entry member
        rw [bne_iff_ne]
        rintro rfl
        exact new (List.mem_map.mpr ⟨entry, member, rfl⟩)
      rw [none, Option.bind_none] at later
      rw [List.lookup_cons_self, Option.bind_some, List.filterMap_cons]
      cases given : give (key, known) with
      | none => exact later
      | some b =>
        have found : wanted b = true := (only _ List.mem_cons_self b given).mpr rfl
        exact List.find?_cons_of_pos found
    · have apart : (key == name) = false := by simpa using same
      rw [List.lookup_cons, apart, List.filterMap_cons]
      cases given : give (name, known) with
      | none => exact later
      | some b =>
        have other : ¬wanted b = true := fun found =>
          same ((only _ List.mem_cons_self b given).mp found)
        exact (List.find?_cons_of_neg other).trans later

/-- Before the rules, a name is bound to what is declared or else to what the traits lend. -/
theorem find_chosen (tidy : offers.Tidy) (key : String) :
    SortedMap.find? (m.chosenTable t offers) key =
      (SortedMap.find? (m.declaredTable t) key).or (m.lent? t (key, offers.ofName key)) := by
  have only : ∀ entry ∈ offers, ∀ b, m.lent? t entry = some b →
      (decide (key = lowercase b.name) = true ↔ key = entry.1) := by
    intro entry member b lent
    rw [decide_eq_true_iff, name_of_lent tidy member lent]
  rw [chosenTable, chosen_fold, MethodTable.find_add_all, find_given tidy.apart only, Offers.ofName]
  cases offers.lookup key with
  | none => simp [lent?, winner?, choose_nil]
  | some known => rfl

theorem chosen_tidy (t : TypeDecl) (offers : Offers) : (m.chosenTable t offers).Tidy := by
  rw [chosenTable, chosen_fold]
  exact (declared_tidy t).add_all _

def Aliases (m : CodeModel) (t : TypeDecl) (offers : Offers) (key : String) (offer : Offer) : Prop :=
  ∃ rule ∈ t.uses.flatMap (·.renames), ∃ name, rule.newName = some name ∧ key = lowercase name ∧
    m.ruleOffer? offers rule = some offer

structure Revised (old new : MethodBinding) : Prop where
  name : new.name = old.name
  method : new.method = old.method
  source : new.source = old.source
  kept : old.source = .declared → new = old

namespace Revised

variable {a b c : MethodBinding}

theorem refl (a : MethodBinding) : Revised a a := ⟨rfl, rfl, rfl, fun _ => rfl⟩

theorem trans (first : Revised a b) (second : Revised b c) : Revised a c where
  name := second.name.trans first.name
  method := second.method.trans first.method
  source := second.source.trans first.source
  kept declared := (second.kept (first.source.trans declared)).trans (first.kept declared)

end Revised

theorem find_visibility_revised {table : MethodTable} {key : String} {binding : MethodBinding}
    (found : SortedMap.find? table key = some binding) (name : String) (visibility : Visibility) :
    ∃ new, SortedMap.find? (MethodTable.setVisibility table name visibility) key = some new ∧
      Revised binding new := by
  rw [MethodTable.find_set_visibility, found]
  refine ⟨_, rfl, ?_⟩
  dsimp only
  split
  next other => exact ⟨rfl, rfl, rfl, fun declared => absurd declared other.2⟩
  · exact .refl binding

theorem find_visibility_none {table : MethodTable} {key : String}
    (unbound : SortedMap.find? table key = none) (name : String) (visibility : Visibility) :
    SortedMap.find? (MethodTable.setVisibility table name visibility) key = none := by
  rw [MethodTable.find_set_visibility, unbound]
  rfl

theorem apply_rename_cases (m : CodeModel) (offers : Offers) (table : MethodTable)
    (rule : RenameRule) :
    (rule.newName = none ∧ ∃ visibility,
        m.applyRename offers table rule = MethodTable.setVisibility table rule.method visibility) ∨
      ((rule.newName = none ∨ m.ruleOffer? offers rule = none) ∧
        m.applyRename offers table rule = table) ∨
      ∃ name offer visibility, rule.newName = some name ∧ m.ruleOffer? offers rule = some offer ∧
        m.applyRename offers table rule =
          MethodTable.add table ⟨name, offer.binding.method, .renamed offer.traitId, visibility⟩ := by
  rw [applyRename]
  cases m.ruleOffer? offers rule with
  | none => exact .inr (.inl ⟨.inr rfl, rfl⟩)
  | some offer =>
    cases rule.newName with
    | some name => exact .inr (.inr ⟨name, offer, _, rfl, rfl, rfl⟩)
    | none =>
      cases rule.visibility with
      | some visibility => exact .inl ⟨rfl, visibility, rfl⟩
      | none => exact .inr (.inl ⟨.inl rfl, rfl⟩)

theorem apply_rename_tidy {table : MethodTable} (tidy : table.Tidy) (rule : RenameRule) :
    (m.applyRename offers table rule).Tidy := by
  rcases apply_rename_cases m offers table rule with ⟨-, _, eq⟩ | ⟨-, eq⟩ | ⟨_, _, _, -, -, eq⟩
  · rw [eq]
    exact tidy.set_visibility ..
  · rw [eq]
    exact tidy
  · rw [eq]
    exact tidy.add _

theorem apply_rename_bound (m : CodeModel) (offers : Offers) {table : MethodTable} {key : String}
    {binding : MethodBinding}
    (found : SortedMap.find? table key = some binding) (rule : RenameRule) :
    ∃ new, SortedMap.find? (m.applyRename offers table rule) key = some new ∧
      Revised binding new := by
  rcases apply_rename_cases m offers table rule with ⟨-, _, eq⟩ | ⟨-, eq⟩ | ⟨_, _, _, -, -, eq⟩
  · rw [eq]
    exact find_visibility_revised found ..
  · rw [eq]
    exact ⟨binding, found, .refl binding⟩
  · rw [eq, MethodTable.find_add, found]
    exact ⟨binding, rfl, .refl binding⟩

theorem renames_tidy {table : MethodTable} (tidy : table.Tidy) (rules : List RenameRule) :
    (rules.foldl (m.applyRename offers) table).Tidy := by
  induction rules generalizing table with
  | nil => exact tidy
  | cons rule rules ih => exact ih (apply_rename_tidy tidy rule)

/-- What is bound stays bound, up to its visibility. -/
theorem renames_bound (m : CodeModel) (offers : Offers) {table : MethodTable} {key : String}
    {binding : MethodBinding}
    (found : SortedMap.find? table key = some binding) (rules : List RenameRule) :
    ∃ new, SortedMap.find? (rules.foldl (m.applyRename offers) table) key = some new ∧
      Revised binding new := by
  induction rules generalizing table binding with
  | nil => exact ⟨binding, found, .refl binding⟩
  | cons rule rules ih =>
    obtain ⟨middle, there, first⟩ := apply_rename_bound m offers found rule
    obtain ⟨new, last, second⟩ := ih there
    exact ⟨new, last, first.trans second⟩

structure AliasOf (offer : Offer) (binding : MethodBinding) : Prop where
  method : binding.method = offer.binding.method
  source : binding.source = .renamed offer.traitId

/-- One rule gives no name but its own. -/
theorem apply_rename_made {table : MethodTable} {key : String} {rule : RenameRule}
    {binding : MethodBinding} (unbound : SortedMap.find? table key = none)
    (found : SortedMap.find? (m.applyRename offers table rule) key = some binding) :
    ∃ name offer, rule.newName = some name ∧ key = lowercase name ∧
      m.ruleOffer? offers rule = some offer ∧ AliasOf offer binding := by
  rcases apply_rename_cases m offers table rule with
    ⟨-, _, eq⟩ | ⟨-, eq⟩ | ⟨name, offer, _, named, offered, eq⟩
  · rw [eq, find_visibility_none unbound] at found
    cases found
  · rw [eq, unbound] at found
    cases found
  · rw [eq, MethodTable.find_add, unbound, Option.none_or] at found
    split at found
    next same =>
      cases found
      exact ⟨name, offer, named, same, offered, rfl, rfl⟩
    · cases found

/-- A name that only the rules bind is a new name in one of them. -/
theorem renames_made {table : MethodTable} {key : String} {rules : List RenameRule}
    {binding : MethodBinding} (unbound : SortedMap.find? table key = none)
    (found : SortedMap.find? (rules.foldl (m.applyRename offers) table) key = some binding) :
    ∃ rule ∈ rules, ∃ name offer, rule.newName = some name ∧ key = lowercase name ∧
      m.ruleOffer? offers rule = some offer ∧ AliasOf offer binding := by
  induction rules generalizing table with
  | nil =>
    rw [List.foldl_nil, unbound] at found
    cases found
  | cons rule rules ih =>
    cases made : SortedMap.find? (m.applyRename offers table rule) key with
    | none =>
      obtain ⟨later, member, rest⟩ := ih made found
      exact ⟨later, List.mem_cons_of_mem _ member, rest⟩
    | some first =>
      obtain ⟨name, offer, named, same, offered, of⟩ := apply_rename_made unbound made
      obtain ⟨last, there, revised⟩ := renames_bound m offers made rules
      rw [List.foldl_cons, there] at found
      cases found
      exact ⟨rule, List.mem_cons_self, name, offer, named, same, offered,
        revised.method.trans of.method, revised.source.trans of.source⟩

/-- A new name of an offered method is bound. -/
theorem bound_of_rule {rules : List RenameRule} {rule : RenameRule} (member : rule ∈ rules)
    {name : String} (named : rule.newName = some name) {offer : Offer}
    (offered : m.ruleOffer? offers rule = some offer) (table : MethodTable) :
    (SortedMap.find? (rules.foldl (m.applyRename offers) table) (lowercase name)).isSome := by
  induction rules generalizing table with
  | nil => cases member
  | cons first rules ih =>
    rcases List.mem_cons.mp member with rfl | later
    · have bound : ∃ b, SortedMap.find? (m.applyRename offers table rule) (lowercase name) = some b := by
        rw [applyRename, offered, named]
        dsimp only
        rw [MethodTable.find_add, if_pos rfl]
        cases SortedMap.find? table (lowercase name) with
        | none => exact ⟨_, rfl⟩
        | some old => exact ⟨old, rfl⟩
      obtain ⟨b, there⟩ := bound
      obtain ⟨new, last, -⟩ := renames_bound m offers there rules
      exact Option.isSome_of_eq_some last
    · exact ih later _

/-- A table holds what a type declares, what the traits lend it and the new names of offered
methods, in this order, and nothing else. -/
structure Composes (m : CodeModel) (t : TypeDecl) (offers : Offers) (table : MethodTable) : Prop where
  tidy : table.Tidy
  declared : ∀ key binding, SortedMap.find? (m.declaredTable t) key = some binding →
    SortedMap.find? table key = some binding
  lent : ∀ key binding, SortedMap.find? (m.declaredTable t) key = none →
    m.lent? t (key, offers.ofName key) = some binding →
      ∃ new, SortedMap.find? table key = some new ∧ Revised binding new
  aliased : ∀ key offer, m.Aliases t offers key offer → (SortedMap.find? table key).isSome
  only : ∀ key binding, SortedMap.find? table key = some binding →
    SortedMap.find? (m.declaredTable t) key = some binding ∨
      SortedMap.find? (m.declaredTable t) key = none ∧
        ((∃ old, m.lent? t (key, offers.ofName key) = some old ∧ Revised old binding) ∨
          m.lent? t (key, offers.ofName key) = none ∧
            ∃ offer, m.Aliases t offers key offer ∧ AliasOf offer binding)

theorem source_of_declared {key : String} {binding : MethodBinding}
    (found : SortedMap.find? (m.declaredTable t) key = some binding) :
    binding.source = .declared := by
  rw [find_declared] at found
  obtain ⟨c, -, rfl⟩ := Option.map_eq_some_iff.mp found
  rfl

theorem table_of_ok (tidy : offers.Tidy) {table : MethodTable}
    (ok : m.tableOf t offers = .ok table) : m.Composes t offers table := by
  have eq : table = (t.uses.flatMap (·.renames)).foldl (m.applyRename offers)
      (m.chosenTable t offers) := by
    simp only [tableOf] at ok
    split at ok
    · exact (Except.ok.inj ok).symm
    · cases ok
  subst eq
  have bound {key : String} {binding : MethodBinding}
      (found : SortedMap.find? (m.chosenTable t offers) key = some binding) :=
    renames_bound m offers found (t.uses.flatMap (·.renames))
  have kept (key : String) (binding : MethodBinding)
      (declared : SortedMap.find? (m.declaredTable t) key = some binding) :
      SortedMap.find? ((t.uses.flatMap (·.renames)).foldl (m.applyRename offers)
        (m.chosenTable t offers)) key = some binding := by
    have chosen : SortedMap.find? (m.chosenTable t offers) key = some binding := by
      rw [find_chosen tidy, declared]
      rfl
    obtain ⟨new, found, revised⟩ := bound chosen
    rw [found, revised.kept (source_of_declared declared)]
  constructor
  · exact renames_tidy (chosen_tidy t offers) _
  · exact kept
  · intro key binding undeclared lent
    refine bound ?_
    rw [find_chosen tidy, undeclared, lent]
    rfl
  · rintro key offer ⟨rule, member, name, named, rfl, offered⟩
    exact bound_of_rule member named offered _
  · intro key binding found
    cases declared : SortedMap.find? (m.declaredTable t) key with
    | some old => exact .inl ((kept key old declared).symm.trans found)
    | none =>
      refine .inr ⟨rfl, ?_⟩
      have chosen := find_chosen (m := m) (t := t) tidy key
      rw [declared, Option.none_or] at chosen
      cases lent : m.lent? t (key, offers.ofName key) with
      | some old =>
        rw [lent] at chosen
        obtain ⟨new, there, revised⟩ := bound chosen
        rw [there] at found
        cases found
        exact .inl ⟨old, rfl, revised⟩
      | none =>
        rw [lent] at chosen
        obtain ⟨rule, member, name, offer, named, same, offered, of⟩ := renames_made chosen found
        exact .inr ⟨rfl, offer, ⟨rule, member, name, named, same, offered⟩, of⟩

/-- Several traits offer a name that the type does not declare, and no rule settles it. -/
def Collides (m : CodeModel) (t : TypeDecl) (offers : Offers) (key : String) : Prop :=
  SortedMap.find? (m.declaredTable t) key = none ∧
    m.choose (m.excludedTypes t key) (offers.ofName key) = .collision

def colliding (m : CodeModel) (t : TypeDecl) (offers : Offers) : Offers :=
  offers.filter fun entry => !MethodTable.binds (m.declaredTable t) entry.1 &&
    decide (m.choose (m.excludedTypes t entry.1) entry.2 = .collision)

theorem table_of_eq (m : CodeModel) (t : TypeDecl) (offers : Offers) :
    m.tableOf t offers =
      if (m.colliding t offers).isEmpty then
        .ok ((t.uses.flatMap (·.renames)).foldl (m.applyRename offers) (m.chosenTable t offers))
      else .error ((m.colliding t offers).filterMap fun entry => m.collisionAt t entry.2) := by
  have collided : (m.choices t offers).filter (·.2 = .collision) =
      (m.colliding t offers).map fun entry =>
        (entry.2, m.choose (m.excludedTypes t entry.1) entry.2) := by
    rw [choices, colliding, List.filter_map, List.filter_filter]
    simp only [Function.comp_def, Bool.and_comm]
  simp only [tableOf, collided, List.isEmpty_map, List.filterMap_map]
  rfl

theorem mem_colliding (tidy : offers.Tidy) {entry : String × List Offer} :
    entry ∈ m.colliding t offers ↔ entry ∈ offers ∧ m.Collides t offers entry.1 := by
  rw [colliding, List.mem_filter]
  refine and_congr_right fun member => ?_
  rw [Collides, tidy.of_mem member, binds_declared (tidy.key member)]
  simp

theorem offered_of_collides {key : String} (collides : m.Collides t offers key) :
    (key, offers.ofName key) ∈ offers := by
  cases known : offers.ofName key with
  | nil =>
    have no := collides.2
    rw [known, choose_nil] at no
    cases no
  | cons offer rest =>
    rw [← known]
    exact Offers.mem_of_name (known ▸ List.mem_cons_self)

/-- A type fails if a name collides, and only then. -/
theorem fails_iff (tidy : offers.Tidy) :
    (∃ found, m.tableOf t offers = .error found) ↔ ∃ key, m.Collides t offers key := by
  rw [table_of_eq]
  constructor
  · rintro ⟨found, failed⟩
    split at failed
    · cases failed
    next some =>
      obtain ⟨entry, member⟩ := List.exists_mem_of_ne_nil _ (by simpa using some)
      exact ⟨_, ((mem_colliding tidy).mp member).2⟩
  · rintro ⟨key, collides⟩
    have member := (mem_colliding tidy).mpr ⟨offered_of_collides collides, collides⟩
    rw [if_neg (by simpa using List.ne_nil_of_mem member)]
    exact ⟨_, rfl⟩

theorem collision_at_some {first : Offer} {rest : List Offer}
    (placed : ∀ offer ∈ first :: rest, offer.clause < t.uses.length) :
    ∃ span, m.collisionAt t (first :: rest) =
      some (.collision first.binding.name t.qualifiedName t.file span) := by
  have inside := placed _ (List.getLast_mem (List.cons_ne_nil first rest))
  rw [collisionAt, List.getLast?_eq_getLast_of_ne_nil (List.cons_ne_nil first rest)]
  simp only [List.head?_cons, Option.bind_eq_bind, Option.bind_some,
    List.getElem?_eq_getElem inside]
  exact ⟨_, rfl⟩

def reports (t : TypeDecl) (named : List (String × Span)) : List Diagnostic :=
  named.map fun e => .collision e.1 t.qualifiedName t.file e.2

theorem reports_of_entries {entries : Offers} (present : ∀ entry ∈ entries, entry.2 ≠ [])
    (every : entries.Every fun key offer =>
      key = lowercase offer.binding.name ∧ offer.clause < t.uses.length) :
    ∃ named, (entries.filterMap fun entry => m.collisionAt t entry.2) = reports t named ∧
      (named.map fun e => lowercase e.1) = entries.map (·.1) := by
  induction entries with
  | nil => exact ⟨[], rfl, rfl⟩
  | cons entry rest ih =>
    obtain ⟨named, made, keys⟩ := ih (fun other member => present other (List.mem_cons_of_mem _ member))
      fun other member => every other (List.mem_cons_of_mem _ member)
    obtain ⟨key, known⟩ := entry
    have here := every _ List.mem_cons_self
    cases known with
    | nil => exact absurd rfl (present _ List.mem_cons_self)
    | cons first others =>
      obtain ⟨span, reported⟩ := collision_at_some (m := m) fun offer member => (here offer member).2
      refine ⟨(first.binding.name, span) :: named, ?_, ?_⟩
      · rw [List.filterMap_cons, made]
        dsimp only
        rw [reported]
        rfl
      · rw [List.map_cons, keys, ← (here first List.mem_cons_self).1]
        rfl

/-- A type that fails is reported for each name that collides, in the order of the offers. -/
theorem reports_of_colliding (tidy : offers.Tidy)
    (placed : offers.Every fun _ offer => offer.clause < t.uses.length) {found : List Diagnostic}
    (failed : m.tableOf t offers = .error found) :
    ∃ named, found = reports t named ∧
      (named.map fun e => lowercase e.1) = (m.colliding t offers).map (·.1) := by
  rw [table_of_eq] at failed
  split at failed
  · cases failed
  · have inside {entry : String × List Offer} (member : entry ∈ m.colliding t offers) :
        entry ∈ offers := (List.mem_filter.mp member).1
    obtain ⟨named, made, keys⟩ := reports_of_entries (m := m) (t := t)
      (fun entry member => tidy.present entry (inside member)) fun entry member offer offered =>
        ⟨tidy.named entry (inside member) offer offered, placed entry (inside member) offer offered⟩
    exact ⟨named, (Except.error.inj failed).symm.trans made, keys⟩

/-- A type that fails is reported once for each name that collides. -/
theorem reports_of_error (tidy : offers.Tidy)
    (placed : offers.Every fun _ offer => offer.clause < t.uses.length) {found : List Diagnostic}
    (failed : m.tableOf t offers = .error found) :
    ∃ named, found = reports t named ∧ named ≠ [] ∧ (named.map fun e => lowercase e.1).Nodup ∧
      ∀ key, key ∈ named.map (fun e => lowercase e.1) ↔ m.Collides t offers key := by
  obtain ⟨named, made, keys⟩ := reports_of_colliding tidy placed failed
  have names (key : String) : key ∈ named.map (fun e => lowercase e.1) ↔ m.Collides t offers key := by
    rw [keys, List.mem_map]
    constructor
    · rintro ⟨entry, member, rfl⟩
      exact ((mem_colliding tidy).mp member).2
    · intro collides
      exact ⟨_, (mem_colliding tidy).mpr ⟨offered_of_collides collides, collides⟩, rfl⟩
  refine ⟨named, made, ?_, ?_, names⟩
  · obtain ⟨key, collides⟩ := (fails_iff tidy).mp ⟨found, failed⟩
    rintro rfl
    exact List.not_mem_nil ((names key).mpr collides)
  · rw [keys]
    exact tidy.apart.sublist (List.filter_sublist.map _)

end CodeModel

end PhpAnalyser
