import PhpAnalyser.Proofs.Code.Finished
import PhpAnalyser.Proofs.Code.Visits
/-!
What the method table of a type holds, read off the finished model alone.
-/
namespace PhpAnalyser

namespace CodeModel

variable (f : CodeModel)

/-- What a type offers: its table or, if it failed, the methods it declares. -/
def offeredTable (id : Nat) : MethodTable := f.offered (fun id => (f.type? id).bind (·.methodTable)) id

def providers (t : TypeDecl) (key : String) : List (Nat × MethodBinding) :=
  Offers.providers f.offeredTable (f.usedTraits t) key

def survivors (t : TypeDecl) (key : String) : List (Nat × MethodBinding) :=
  (f.providers t key).filter fun p => !(f.excludedTypes t key).contains p.1

def concreteSurvivors (t : TypeDecl) (key : String) : List (Nat × MethodBinding) :=
  (f.survivors t key).filter fun p => !(f.callable? p.2.method).any (·.isAbstract)

def declared? (t : TypeDecl) (key : String) : Option Callable :=
  (f.methodsOf t).find? fun c => key = lowercase c.name

/-- No rule settles a name that a type does not declare. -/
structure Unsettled (t : TypeDecl) (key : String) : Prop where
  undeclared : f.declared? t key = none
  ambiguous : 2 ≤ (f.concreteSurvivors t key).length ∨
    2 ≤ (f.providers t key).length ∧ f.survivors t key = []

def SourceOffered (t : TypeDecl) (rule : RenameRule) : Prop :=
  ∃ p ∈ f.providers t (lowercase rule.method),
    ∀ name, rule.traitName = some name → (f.resolve name).map (·.id) = some p.1

def IsAlias (t : TypeDecl) (key : String) : Prop :=
  ∃ rule ∈ t.uses.flatMap (·.renames), ∃ name, rule.newName = some name ∧ key = lowercase name ∧
    f.SourceOffered t rule

/-- The trait that gives a name: the only one left with a body, or else the first one left. -/
def Gives (t : TypeDecl) (key : String) (p : Nat × MethodBinding) : Prop :=
  f.concreteSurvivors t key = [p] ∨
    f.concreteSurvivors t key = [] ∧ (f.survivors t key).head? = some p

/-- The names that a table binds, and what it binds them to. -/
structure Holds (t : TypeDecl) (table : MethodTable) : Prop where
  tidy : table.Tidy
  names : ∀ key, (SortedMap.find? table key).isSome ↔
    (f.declared? t key).isSome ∨ f.survivors t key ≠ [] ∨ f.IsAlias t key
  declared : ∀ key c, f.declared? t key = some c →
    SortedMap.find? table key = some ⟨c.name, c.id, .declared, c.visibility⟩
  given : ∀ key, f.declared? t key = none → f.survivors t key ≠ [] →
    ∃ p binding, f.Gives t key p ∧ SortedMap.find? table key = some binding ∧
      binding.name = p.2.name ∧ binding.method = p.2.method ∧ binding.source = .fromTrait p.1

variable {f}

def offersTo (f : CodeModel) (t : TypeDecl) : Offers :=
  Offers.gathered f.offeredTable (f.usedTraits t)

theorem offers_to_tidy (t : TypeDecl) : (f.offersTo t).Tidy := Offers.gathered_tidy _

theorem find_declared_eq_none {t : TypeDecl} {key : String} :
    SortedMap.find? (f.declaredTable t) key = none ↔ f.declared? t key = none := by
  rw [find_declared, Option.map_eq_none_iff]
  rfl

theorem remaining_map (removed : List Nat) (offers : List Offer) :
    (remaining removed offers).map Offer.provider =
      (offers.map Offer.provider).filter fun p => !removed.contains p.1 := by
  rw [List.filter_map]
  rfl

theorem concretes_map (removed : List Nat) (offers : List Offer) :
    (f.concretes removed offers).map Offer.provider =
      ((remaining removed offers).map Offer.provider).filter fun p =>
        !(f.callable? p.2.method).any (·.isAbstract) := by
  rw [List.filter_map]
  rfl

section Tidy

variable {t : TypeDecl} (tidy : ∀ id, (f.offeredTable id).Tidy) (key : String)
include tidy

theorem providers_eq : ((f.offersTo t).ofName key).map Offer.provider = f.providers t key :=
  Offers.of_name_gathered tidy _ key

theorem survivors_eq :
    (remaining (f.excludedTypes t key) ((f.offersTo t).ofName key)).map Offer.provider =
      f.survivors t key := by
  rw [remaining_map, providers_eq tidy]
  rfl

theorem concrete_survivors_eq :
    (f.concretes (f.excludedTypes t key) ((f.offersTo t).ofName key)).map Offer.provider =
      f.concreteSurvivors t key := by
  rw [concretes_map, survivors_eq tidy]
  rfl

theorem collides_iff : f.Collides t (f.offersTo t) key ↔ f.Unsettled t key := by
  rw [Collides, find_declared_eq_none, choose_collision, ← List.length_map Offer.provider,
    concrete_survivors_eq tidy, ← List.length_map Offer.provider, providers_eq tidy,
    ← List.map_eq_nil_iff (f := Offer.provider), survivors_eq tidy]
  constructor
  · rintro ⟨undeclared, collision⟩
    exact ⟨undeclared, collision⟩
  · rintro ⟨undeclared, unsettled⟩
    exact ⟨undeclared, unsettled⟩

theorem source_offered_iff (rule : RenameRule) :
    (f.ruleOffer? (f.offersTo t) rule).isSome ↔ f.SourceOffered t rule := by
  have offers : ∀ p, p ∈ f.providers t (lowercase rule.method) ↔
      ∃ o ∈ (f.offersTo t).ofName (lowercase rule.method), o.provider = p := by
    intro p
    rw [← providers_eq tidy, List.mem_map]
  unfold ruleOffer? SourceOffered
  simp only [offers]
  cases rule.traitName with
  | none =>
    rw [List.isSome_head?]
    constructor
    · intro some
      obtain ⟨o, offered⟩ := List.exists_mem_of_ne_nil _ some
      exact ⟨_, ⟨o, offered, rfl⟩, nofun⟩
    · rintro ⟨_, ⟨o, offered, -⟩, -⟩
      exact List.ne_nil_of_mem offered
  | some name =>
    rw [List.find?_isSome]
    constructor
    · rintro ⟨o, offered, leads⟩
      refine ⟨_, ⟨o, offered, rfl⟩, ?_⟩
      rintro _ ⟨⟩
      exact (of_decide_eq_true leads).symm
    · rintro ⟨_, ⟨o, offered, rfl⟩, leads⟩
      exact ⟨o, offered, decide_eq_true (leads name rfl).symm⟩

theorem is_alias_iff : (∃ offer, f.Aliases t (f.offersTo t) key offer) ↔ f.IsAlias t key := by
  constructor
  · rintro ⟨offer, rule, member, name, named, same, offered⟩
    exact ⟨rule, member, name, named, same,
      (source_offered_iff tidy rule).mp (Option.isSome_of_eq_some offered)⟩
  · rintro ⟨rule, member, name, named, same, offered⟩
    obtain ⟨offer, found⟩ := Option.isSome_iff_exists.mp ((source_offered_iff tidy rule).mpr offered)
    exact ⟨offer, rule, member, name, named, same, found⟩

omit tidy in
theorem lent_of_undeclared {offers : Offers} (tidy : offers.Tidy)
    (undeclared : f.declared? t key = none) : f.lent? t (key, offers.ofName key) =
      (f.winner? (f.excludedTypes t key) (offers.ofName key)).map lentBinding := by
  have unbound : SortedMap.find? (f.declaredTable t) key = none :=
    find_declared_eq_none.mpr undeclared
  rw [lent?]
  split
  next bound =>
    cases offered : offers.ofName key with
    | nil => rfl
    | cons first rest =>
      have small := tidy.key (Offers.mem_of_name (offered ▸ List.mem_cons_self))
      rw [binds_declared small, unbound] at bound
      cases bound
  · rfl

/-- If the choice on a name is settled, the trait that gives it is the one that is chosen. -/
theorem winner_gives
    (settled : f.choose (f.excludedTypes t key) ((f.offersTo t).ofName key) ≠ .collision) :
    (f.winner? (f.excludedTypes t key) ((f.offersTo t).ofName key) = none ↔
        f.survivors t key = []) ∧
      ∀ offer, f.winner? (f.excludedTypes t key) ((f.offersTo t).ofName key) = some offer →
        f.Gives t key offer.provider := by
  constructor
  · rw [← survivors_eq tidy, List.map_eq_nil_iff, ← Option.not_isSome_iff_eq_none,
      winner_is_some settled, not_not]
  intro offer wins
  unfold Gives
  rw [← concrete_survivors_eq tidy, ← survivors_eq tidy, List.head?_map]
  cases whole : f.concretes (f.excludedTypes t key) ((f.offersTo t).ofName key) with
  | nil =>
    rw [winner_of_choice settled, whole, List.head?_nil, Option.none_or] at wins
    exact .inr ⟨rfl, by rw [wins]; rfl⟩
  | cons first rest =>
    have few : rest = [] := by
      by_contra more
      refine settled (choose_collision.mpr (.inl ?_))
      rw [whole, List.length_cons]
      exact Nat.succ_le_succ (List.length_pos_iff.mpr more)
    rw [winner_of_choice settled, whole] at wins
    rw [few, ← Option.some.inj wins]
    exact .inl rfl

omit tidy in
theorem find_own {c : Callable} (declared : f.declared? t key = some c) :
    SortedMap.find? (f.declaredTable t) key = some (ownBinding c) := by
  rw [find_declared, ← declared?, declared]
  rfl

omit tidy in
theorem find_own_none (undeclared : f.declared? t key = none) :
    SortedMap.find? (f.declaredTable t) key = none :=
  find_declared_eq_none.mpr undeclared

section Succeeds

variable {table : MethodTable} (ok : f.tableOf t (f.offersTo t) = .ok table)
include ok

omit tidy in
theorem settled_of_ok (undeclared : f.declared? t key = none) :
    f.choose (f.excludedTypes t key) ((f.offersTo t).ofName key) ≠ .collision := by
  intro collision
  obtain ⟨found, error⟩ := (fails_iff (offers_to_tidy t)).mpr
    ⟨key, find_own_none key undeclared, collision⟩
  cases ok.symm.trans error

theorem survivor_bound (undeclared : f.declared? t key = none) (survives : f.survivors t key ≠ []) :
    ∃ p binding, f.Gives t key p ∧ SortedMap.find? table key = some binding ∧
      binding.name = p.2.name ∧ binding.method = p.2.method ∧
      binding.source = .fromTrait p.1 := by
  obtain ⟨none_iff, gives⟩ := winner_gives tidy key (settled_of_ok key ok undeclared)
  cases wins : f.winner? (f.excludedTypes t key) ((f.offersTo t).ofName key) with
  | none => exact absurd (none_iff.mp wins) survives
  | some offer =>
    have lent := lent_of_undeclared key (offers_to_tidy (f := f) t) undeclared
    rw [wins] at lent
    obtain ⟨binding, found, revised⟩ :=
      (table_of_ok (offers_to_tidy t) ok).lent key _ (find_own_none key undeclared) lent
    exact ⟨offer.provider, binding, gives offer wins, found, revised.name, revised.method,
      revised.source⟩

omit key in
theorem holds_of_ok : f.Holds t table := by
  have composes := table_of_ok (offers_to_tidy t) ok
  have settled := fun key => settled_of_ok key ok
  have given := fun key => survivor_bound tidy key ok
  refine ⟨composes.tidy, fun key => ⟨fun bound => ?_, ?_⟩, ?_, given⟩
  · obtain ⟨binding, found⟩ := Option.isSome_iff_exists.mp bound
    cases declared : f.declared? t key with
    | some c => exact .inl rfl
    | none =>
      refine .inr ?_
      rcases composes.only key binding found with own | ⟨-, ⟨old, lent, -⟩ | ⟨-, offer, alias', -⟩⟩
      · rw [find_own_none key declared] at own
        cases own
      · left
        rw [lent_of_undeclared key (offers_to_tidy t) declared] at lent
        obtain ⟨none_iff, -⟩ := winner_gives tidy key (settled key declared)
        intro gone
        rw [none_iff.mpr gone] at lent
        cases lent
      · exact .inr ((is_alias_iff tidy key).mp ⟨offer, alias'⟩)
  · rintro (own | survives | renamed)
    · obtain ⟨c, declared⟩ := Option.isSome_iff_exists.mp own
      exact Option.isSome_of_eq_some (composes.declared key _ (find_own key declared))
    · cases declared : f.declared? t key with
      | some c => exact Option.isSome_of_eq_some (composes.declared key _ (find_own key declared))
      | none =>
        obtain ⟨p, binding, -, found, -⟩ := given key declared survives
        exact Option.isSome_of_eq_some found
    · obtain ⟨offer, aliases⟩ := (is_alias_iff tidy key).mpr renamed
      exact composes.aliased key offer aliases
  · exact fun key c declared => composes.declared key _ (find_own key declared)

end Succeeds

omit key in
theorem failed_iff :
    (∃ found, f.tableOf t (f.offersTo t) = .error found) ↔ ∃ key, f.Unsettled t key := by
  rw [fails_iff (offers_to_tidy t)]
  exact exists_congr fun key => collides_iff tidy key

end Tidy

end CodeModel

namespace Assembly

open CodeModel

variable {calls : List Added} (acyclic : (finished calls).Acyclic)
include acyclic

/-- Where no trait uses itself, the finished tables are those of the plain definition. -/
theorem finished_plain {t : TypeDecl} (member : t ∈ (finished calls).types) :
    t.composition = .ofTable? ((finished calls).plain t.id) := by
  obtain ⟨r, there, rfl⟩ := mem_finished member
  rw [finished_eq] at acyclic ⊢
  rw [Acyclic, recomposed_uses] at acyclic
  rw [recomposed_plain]
  exact Composing.run_all_plain (types_numbered calls) acyclic there

theorem finished_tables :
    (fun id => ((finished calls).type? id).bind (·.methodTable)) = (finished calls).plain := by
  funext id
  cases found : (finished calls).type? id with
  | none => rw [plain_eq (finished_numbered calls) acyclic, found]; rfl
  | some t =>
    have plain := finished_plain acyclic (Array.mem_of_getElem? found)
    rw [Option.bind_some, TypeDecl.methodTable, plain, Composition.table_of_table,
      finished_numbered calls id t found]

theorem offered_table_eq :
    (finished calls).offeredTable = (finished calls).offered (finished calls).plain := by
  funext id
  rw [offeredTable, finished_tables acyclic]

theorem offered_tidy (id : Nat) : ((finished calls).offeredTable id).Tidy := by
  rw [offered_table_eq acyclic, offered, plain_eq (finished_numbered calls) acyclic,
    Composing.fallback]
  cases (finished calls).type? id with
  | none => exact .nil
  | some t =>
    rw [Option.bind_some, plainOf]
    cases result : (finished calls).tableOf t _ with
    | ok table => exact (table_of_ok (Offers.gathered_tidy _) result).tidy
    | error found => exact declared_tidy t

/-- The composition of a type follows from what the used traits offer in the end. -/
theorem finished_settled {t : TypeDecl} (member : t ∈ (finished calls).types) :
    t.composition =
      .ofTable? ((finished calls).tableOf t ((finished calls).offersTo t)).toOption := by
  rw [finished_plain acyclic member, plain_eq (finished_numbered calls) acyclic, offersTo,
    offered_table_eq acyclic]
  have found : (finished calls).type? t.id = some t := (finished_numbered calls).get member
  rw [found]
  rfl

/-- Where no trait uses itself, a type fails if a name is left unsettled, and only then; otherwise
its table holds what it declares, what the traits left give, and the new names of offered methods. -/
theorem contents_after : ∀ t ∈ (finished calls).types,
    (t.composition = .failed ↔ ∃ key, (finished calls).Unsettled t key) ∧
      (t.composition ≠ .failed →
        ∃ table, t.composition = .composed table ∧ (finished calls).Holds t table) := by
  intro t member
  have tidy := offered_tidy acyclic
  rw [finished_settled acyclic member, ← failed_iff tidy]
  cases result : (finished calls).tableOf t ((finished calls).offersTo t) with
  | ok table =>
    refine ⟨⟨nofun, fun ⟨_, no⟩ => nomatch no⟩, fun _ => ⟨table, rfl, holds_of_ok tidy result⟩⟩
  | error found => exact ⟨⟨fun _ => ⟨found, rfl⟩, fun _ => rfl⟩, fun no => absurd rfl no⟩

omit acyclic in
def sharedName : Added := .source "shared.php"
  "<?php trait A { function f() {} } trait B { function f() {} } class C { use A, B { A::f insteadof B; B::f as g; } } class D { use A, B; }"

omit acyclic in
theorem contents_after_shared_name :
    (finished [sharedName]).types.toList.map (fun t => decide (t.composition = .failed)) =
        [false, false, false, true] ∧
      ∀ t ∈ (finished [sharedName]).types,
        (t.composition = .failed ↔ ∃ key, (finished [sharedName]).Unsettled t key) ∧
          (t.composition ≠ .failed → ∃ table, t.composition = .composed table ∧
            (finished [sharedName]).Holds t table) :=
  ⟨by decide +kernel,
    contents_after (acyclic_of_before (finished_numbered [sharedName]) (by decide +kernel))⟩

end Assembly

end PhpAnalyser
