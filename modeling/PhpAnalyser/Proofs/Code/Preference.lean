import PhpAnalyser.Proofs.Code.Settled
import PhpAnalyser.Proofs.Text.AsciiCase
/-!
Whose methods a collision is between. Two different used traits offer the name, whether their
methods are two or one: what counts is the trait through which a method comes, and a trait that is
used several times counts once. Rules prefer the method of one trait to that of another. Offers
stand under the lowercase of their names, in which every letter counts, but a rule is found by the
case of ASCII letters alone. So a rule that spells a name as it is declared settles the name if both
make the same of it.
-/
namespace PhpAnalyser

open Relation (ReflTransGen)

/-- Where each key stands once, two entries have different keys. -/
theorem two_le_length_iff {α β : Type} {f : α → β} {l : List α} (once : (l.map f).Nodup) :
    2 ≤ l.length ↔ ∃ a ∈ l, ∃ b ∈ l, f a ≠ f b := by
  match l with
  | [] => simp
  | [a] => simp
  | a :: b :: rest =>
    refine ⟨fun _ => ⟨a, List.mem_cons_self, b, by simp, ?_⟩, fun _ => by simp⟩
    have apart := (List.nodup_cons.mp once).1
    rintro same
    rw [same] at apart
    exact apart List.mem_cons_self

namespace CodeModel

variable (f : CodeModel)

/-- Two used traits offer a name that their user does not declare, and no rule settles which method
it is: both are left with a body, or the rules take out all that offer it. -/
structure Rivals (t : TypeDecl) (tables : Nat → MethodTable) (key : String) (a b : Nat) : Prop where
  undeclared : f.declared? t key = none
  apart : a ≠ b
  used : a ∈ (f.usedTraits t).map (·.1) ∧ b ∈ (f.usedTraits t).map (·.1)
  offered : ∃ x y, SortedMap.find? (tables a) key = some x ∧
    SortedMap.find? (tables b) key = some y ∧
    ((a ∉ f.excludedTypes t key ∧ b ∉ f.excludedTypes t key ∧
        (f.callable? x.method).any (·.isAbstract) = false ∧
        (f.callable? y.method).any (·.isAbstract) = false) ∨
      ∀ u ∈ (f.usedTraits t).map (·.1), (SortedMap.find? (tables u) key).isSome →
        u ∈ f.excludedTypes t key)

variable {f} {t : TypeDecl} {tables : Nat → MethodTable} {key : String}

/-- The traits of two different entries in a part of what is offered. -/
theorem two_offered (tidy : ∀ id, (tables id).Tidy) {part : List Offer}
    (inside : part.Sublist ((Offers.gathered tables (f.usedTraits t)).ofName key)) :
    2 ≤ part.length ↔ ∃ a ∈ part, ∃ b ∈ part, a.traitId ≠ b.traitId :=
  two_le_length_iff ((inside.map _).nodup (Offers.traits_once tidy _ key))

theorem rivals_of_collides (tidy : ∀ id, (tables id).Tidy)
    (collides : f.Collides t (Offers.gathered tables (f.usedTraits t)) key) :
    ∃ a b, f.Rivals t tables key a b := by
  have provided {a : Offer} (member : a ∈ (Offers.gathered tables (f.usedTraits t)).ofName key) :=
    (Offers.mem_of_name_gathered tidy).mp ⟨a, member, rfl⟩
  obtain ⟨unbound, choice⟩ := collides
  have undeclared := find_declared_eq_none.mp unbound
  rcases choose_collision.mp choice with many | ⟨many, gone⟩
  · obtain ⟨a, first, b, second, apart⟩ :=
      (two_offered tidy (List.filter_sublist.trans List.filter_sublist)).mp many
    obtain ⟨inA, leftA, wholeA⟩ := mem_concretes.mp first
    obtain ⟨inB, leftB, wholeB⟩ := mem_concretes.mp second
    exact ⟨a.traitId, b.traitId, undeclared, apart, ⟨(provided inA).1, (provided inB).1⟩,
      a.binding, b.binding, (provided inA).2, (provided inB).2, .inl ⟨leftA, leftB, wholeA, wholeB⟩⟩
  · obtain ⟨a, inA, b, inB, apart⟩ := (two_offered tidy (.refl _)).mp many
    refine ⟨a.traitId, b.traitId, undeclared, apart, ⟨(provided inA).1, (provided inB).1⟩,
      a.binding, b.binding, (provided inA).2, (provided inB).2, .inr fun u used bound => ?_⟩
    obtain ⟨x, found⟩ := Option.isSome_iff_exists.mp bound
    obtain ⟨offer, member, same⟩ := (Offers.mem_of_name_gathered (p := (u, x)) tidy).mpr ⟨used, found⟩
    have removed := remaining_eq_nil.mp gone offer member
    rwa [show offer.traitId = u from congrArg Prod.fst same] at removed

theorem collides_of_rivals (tidy : ∀ id, (tables id).Tidy) {a b : Nat}
    (rivals : f.Rivals t tables key a b) :
    f.Collides t (Offers.gathered tables (f.usedTraits t)) key := by
  obtain ⟨undeclared, apart, ⟨usedA, usedB⟩, x, y, foundX, foundY, unsettled⟩ := rivals
  obtain ⟨first, inA, sameA⟩ :=
    (Offers.mem_of_name_gathered (p := (a, x)) tidy).mpr ⟨usedA, foundX⟩
  obtain ⟨second, inB, sameB⟩ :=
    (Offers.mem_of_name_gathered (p := (b, y)) tidy).mpr ⟨usedB, foundY⟩
  cases sameA
  cases sameB
  refine ⟨find_declared_eq_none.mpr undeclared, choose_collision.mpr ?_⟩
  rcases unsettled with ⟨leftA, leftB, wholeA, wholeB⟩ | gone
  · refine .inl ((two_offered tidy (List.filter_sublist.trans List.filter_sublist)).mpr ?_)
    exact ⟨first, mem_concretes.mpr ⟨inA, leftA, wholeA⟩, second,
      mem_concretes.mpr ⟨inB, leftB, wholeB⟩, apart⟩
  · refine .inr ⟨(two_offered tidy (.refl _)).mpr ⟨first, inA, second, inB, apart⟩, ?_⟩
    refine remaining_eq_nil.mpr fun offer member => ?_
    obtain ⟨used, found⟩ := (Offers.mem_of_name_gathered tidy).mp ⟨offer, member, rfl⟩
    exact gone offer.traitId used (Option.isSome_of_eq_some found)

theorem collides_iff_rivals (tidy : ∀ id, (tables id).Tidy) :
    f.Collides t (Offers.gathered tables (f.usedTraits t)) key ↔ ∃ a b, f.Rivals t tables key a b :=
  ⟨rivals_of_collides tidy, fun ⟨_, _, rivals⟩ => collides_of_rivals tidy rivals⟩

end CodeModel

namespace Assembly

open CodeModel

/-- In one order of all types, each type has its table from what it is offered in that order, and a
collision is reported of it for the names that have rivals among these offers, and for no others. A
trait that does not get back to the type offers the table that it has in the end. -/
theorem collisions_between_traits (calls : List Added) :
    ∃ order, (finished calls).Arranged order ∧ ∀ t ∈ (finished calls).types,
      (∀ u ∈ ((finished calls).usedTraits t).map (·.1),
        ¬ReflTransGen (finished calls).UsesTrait u t.id →
          (finished calls).offeredIn order t.id u = (finished calls).offeredTable u) ∧
      t.composition = .ofTable? ((finished calls).tableOf t
        (Offers.gathered ((finished calls).offeredIn order t.id)
          ((finished calls).usedTraits t))).toOption ∧
      ∀ key,
        (∃ d ∈ (after calls).finish.diagnostics, ∃ method,
          d.Names t method ∧ lowercase method = key) ↔
        ∃ a b, (finished calls).Rivals t ((finished calls).offeredIn order t.id) key a b := by
  obtain ⟨order, arranged, settled⟩ := settled_after calls
  refine ⟨order, arranged, fun t member => ⟨?_, (settled t member).result, fun key => ?_⟩⟩
  · have found : (finished calls).type? t.id = some t := (finished_numbered calls).get member
    exact fun u used apart => arranged.offered_in ⟨t, found, used⟩ apart
  · rw [(settled t member).reported_iff member]
    exact collides_iff_rivals (settled t member).offered.tidy

def sharedBase : Added := .source "base.php"
  "<?php trait T { function m() {} } trait A { use T; } trait B { use T; } class C { use A, B; }"

theorem shared_base_model : ∃ t ∈ (finished [sharedBase]).type? 3,
    Diagnostic.collision "m" "C" 0 ⟨82, 91, ⟨1, 83⟩, ⟨1, 91⟩⟩ ∈
      (after [sharedBase]).finish.diagnostics ∧
    t.qualifiedName = "C" ∧ t.file = 0 ∧ lowercase "m" = "m" ∧
    ∀ p ∈ (finished [sharedBase]).providers t "m",
      ∀ q ∈ (finished [sharedBase]).providers t "m", p.2.method = q.2.method := by
  decide +kernel

theorem collisions_between_traits_base : ∃ t ∈ (finished [sharedBase]).type? 3,
    ∃ order, (finished [sharedBase]).Arranged order ∧ ∃ a b,
      (finished [sharedBase]).Rivals t ((finished [sharedBase]).offeredIn order t.id) "m" a b := by
  obtain ⟨t, found, listed, name, file, small, -⟩ := shared_base_model
  obtain ⟨order, arranged, collisions⟩ := collisions_between_traits [sharedBase]
  obtain ⟨-, -, named⟩ := collisions t (Array.mem_of_getElem? found)
  rw [← name, ← file] at listed
  exact ⟨t, found, order, arranged, (named "m").mp ⟨_, listed, "m", ⟨_, rfl⟩, small⟩⟩

/-- A method that comes through two used traits collides with itself. -/
theorem collision_of_one_method : ∃ t ∈ (finished [sharedBase]).type? 3,
    (∃ d ∈ (after [sharedBase]).finish.diagnostics, d.Names t "m") ∧
      ∀ p ∈ (finished [sharedBase]).providers t "m",
        ∀ q ∈ (finished [sharedBase]).providers t "m", p.2.method = q.2.method := by
  obtain ⟨t, found, listed, name, file, -, same⟩ := shared_base_model
  rw [← name, ← file] at listed
  exact ⟨t, found, ⟨_, listed, _, rfl⟩, same⟩

end Assembly

namespace CodeModel

variable (f : CodeModel)

/-- Two used traits declare a method with a body under one spelling, no other used trait offers the
name, and the rules about it are spelled the same and take out the second trait. -/
structure Preference (t : TypeDecl) (name : String) (a b : TypeDecl) (first second : Callable) :
    Prop where
  types : a ∈ f.types ∧ b ∈ f.types
  apart : a.id ≠ b.id
  used : a.id ∈ (f.usedTraits t).map (·.1) ∧ b.id ∈ (f.usedTraits t).map (·.1)
  declared : f.declared? a (lowercase name) = some first ∧ f.declared? b (lowercase name) = some second
  spelled : first.name = name ∧ second.name = name
  whole : first.isAbstract = false ∧ second.isAbstract = false
  undeclared : f.declared? t (lowercase name) = none
  alone : ∀ u ∈ (f.usedTraits t).map (·.1), u ≠ a.id → u ≠ b.id →
    SortedMap.find? (f.offeredTable u) (lowercase name) = none
  ruled : ∃ rule ∈ t.uses.flatMap (·.precedences), rule.method = name
  rules : ∀ rule ∈ t.uses.flatMap (·.precedences), lowercase rule.method = lowercase name →
    rule.method = name ∧ (rule.excluded.filterMap f.resolve).map (·.id) = [b.id]

instance (t : TypeDecl) (name : String) (a b : TypeDecl) (first second : Callable) :
    Decidable (f.Preference t name a b first second) :=
  decidable_of_iff
    ((a ∈ f.types ∧ b ∈ f.types) ∧ a.id ≠ b.id ∧
      (a.id ∈ (f.usedTraits t).map (·.1) ∧ b.id ∈ (f.usedTraits t).map (·.1)) ∧
      (f.declared? a (lowercase name) = some first ∧ f.declared? b (lowercase name) = some second) ∧
      (first.name = name ∧ second.name = name) ∧
      (first.isAbstract = false ∧ second.isAbstract = false) ∧
      f.declared? t (lowercase name) = none ∧
      (∀ u ∈ (f.usedTraits t).map (·.1), u ≠ a.id → u ≠ b.id →
        SortedMap.find? (f.offeredTable u) (lowercase name) = none) ∧
      (∃ rule ∈ t.uses.flatMap (·.precedences), rule.method = name) ∧
      ∀ rule ∈ t.uses.flatMap (·.precedences), lowercase rule.method = lowercase name →
        rule.method = name ∧ (rule.excluded.filterMap f.resolve).map (·.id) = [b.id])
    ⟨fun ⟨a, b, c, d, e, f, g, h, i, j⟩ => ⟨a, b, c, d, e, f, g, h, i, j⟩,
      fun ⟨a, b, c, d, e, f, g, h, i, j⟩ => ⟨a, b, c, d, e, f, g, h, i, j⟩⟩

variable {f} {t a b : TypeDecl} {name : String} {first second : Callable}

/-- The rules take out the second trait if they are found at all. -/
theorem Preference.excluded_iff (prefers : f.Preference t name a b first second) (u : Nat) :
    u ∈ f.excludedTypes t (lowercase name) ↔ u = b.id ∧ asciiLower name = lowercase name := by
  rw [excludedTypes, List.mem_flatMap]
  constructor
  · rintro ⟨rule, found, taken⟩
    obtain ⟨listed, same⟩ := List.mem_filter.mp found
    obtain ⟨spelled, exact'⟩ := prefers.rules rule listed (lowercase_of_same_case same)
    rw [exact', List.mem_singleton] at taken
    rw [spelled] at same
    exact ⟨taken, same_case_lowercase.mp same⟩
  · rintro ⟨rfl, agree⟩
    obtain ⟨rule, listed, spelled⟩ := prefers.ruled
    obtain ⟨-, exact'⟩ := prefers.rules rule listed (by rw [spelled])
    refine ⟨rule, List.mem_filter.mpr ⟨listed, ?_⟩, ?_⟩
    · rw [spelled]
      exact same_case_lowercase.mpr agree
    · rw [exact']
      exact List.mem_singleton.mpr rfl

end CodeModel

namespace Assembly

open CodeModel

variable {calls : List Added}

/-- A declared method is the callable of its id. -/
theorem callable_of_declared {u : TypeDecl} {key : String} {c : Callable}
    (declared : (finished calls).declared? u key = some c) :
    (finished calls).callable? c.id = some c := by
  obtain ⟨id, -, found⟩ := List.mem_filterMap.mp (List.mem_of_find?_eq_some declared)
  rw [finished_eq, recomposed_callable] at found ⊢
  rw [(kept_after calls).referential.callable_ids id c found]
  exact found

theorem body_of_declared {u : TypeDecl} {key : String} {c : Callable}
    (declared : (finished calls).declared? u key = some c) (body : c.isAbstract = false) :
    ((finished calls).callable? (ownBinding c).method).any (·.isAbstract) = false := by
  rw [ownBinding, callable_of_declared declared]
  exact body

section Preference

variable {t a b : TypeDecl} {name : String} {first second : Callable}
  (prefers : (finished calls).Preference t name a b first second)
  {tables : Nat → MethodTable} (offered : Offered (finished calls) tables)
include prefers offered

/-- Nothing but the two methods is offered under the name. -/
theorem preference_offers {u : Nat} {binding : MethodBinding}
    (used : u ∈ ((finished calls).usedTraits t).map (·.1))
    (found : SortedMap.find? (tables u) (lowercase name) = some binding) :
    u = a.id ∧ binding = ownBinding first ∨ u = b.id ∧ binding = ownBinding second := by
  by_cases isA : u = a.id
  · rw [isA, offered.declared prefers.types.1 prefers.declared.1] at found
    exact .inl ⟨isA, (Option.some.inj found).symm⟩
  by_cases isB : u = b.id
  · rw [isB, offered.declared prefers.types.2 prefers.declared.2] at found
    exact .inr ⟨isB, (Option.some.inj found).symm⟩
  rw [offered.unbound (prefers.alone u used isA isB)] at found
  cases found

/-- The two methods are rivals if the rules are not found. -/
theorem preference_rivals : (∃ u v, (finished calls).Rivals t tables (lowercase name) u v) ↔
    asciiLower name ≠ lowercase name := by
  have lentA := offered.declared prefers.types.1 prefers.declared.1
  have lentB := offered.declared prefers.types.2 prefers.declared.2
  constructor
  · rintro ⟨u, v, -, apart, ⟨usedU, usedV⟩, x, y, foundU, foundV, unsettled⟩ agree
    have taken (w : Nat) := prefers.excluded_iff w
    simp only [agree, and_true] at taken
    rcases unsettled with ⟨leftU, leftV, -⟩ | gone
    · have one {w : Nat} {z : MethodBinding} (used : w ∈ ((finished calls).usedTraits t).map (·.1))
          (found : SortedMap.find? (tables w) (lowercase name) = some z)
          (left : w ∉ (finished calls).excludedTypes t (lowercase name)) : w = a.id := by
        rcases preference_offers prefers offered used found with ⟨same, -⟩ | ⟨same, -⟩
        · exact same
        · exact absurd ((taken w).mpr same) left
      exact apart ((one usedU foundU leftU).trans (one usedV foundV leftV).symm)
    · have out := gone a.id prefers.used.1 (Option.isSome_of_eq_some lentA)
      exact prefers.apart ((taken a.id).mp out)
  · intro differ
    have left (w : Nat) : w ∉ (finished calls).excludedTypes t (lowercase name) := fun taken =>
      differ ((prefers.excluded_iff w).mp taken).2
    exact ⟨a.id, b.id, prefers.undeclared, prefers.apart, prefers.used, _, _, lentA, lentB,
      .inl ⟨left _, left _, body_of_declared prefers.declared.1 prefers.whole.1,
        body_of_declared prefers.declared.2 prefers.whole.2⟩⟩

/-- Where the rules are found, the name goes to the first of the two traits. -/
theorem preference_bound (agree : asciiLower name = lowercase name) {table : MethodTable}
    (ok : (finished calls).tableOf t
      (Offers.gathered tables ((finished calls).usedTraits t)) = .ok table) :
    ∃ binding, MethodTable.get? table name = some binding ∧ binding.name = name ∧
      binding.method = first.id ∧ binding.source = .fromTrait a.id := by
  have tidy : (Offers.gathered tables ((finished calls).usedTraits t)).Tidy := Offers.gathered_tidy _
  have settled : (finished calls).choose ((finished calls).excludedTypes t (lowercase name))
      ((Offers.gathered tables ((finished calls).usedTraits t)).ofName (lowercase name)) ≠
        .collision := by
    intro collision
    have collides := And.intro (find_declared_eq_none.mpr prefers.undeclared) collision
    exact (preference_rivals prefers offered).mp ((collides_iff_rivals offered.tidy).mp collides) agree
  obtain ⟨own, there, same⟩ := (Offers.mem_of_name_gathered (p := (a.id, ownBinding first))
    offered.tidy).mpr ⟨prefers.used.1, offered.declared prefers.types.1 prefers.declared.1⟩
  have trait : own.traitId = a.id := congrArg Prod.fst same
  have bound : own.binding = ownBinding first := congrArg Prod.snd same
  have left : own.traitId ∉ (finished calls).excludedTypes t (lowercase name) := fun taken =>
    prefers.apart (trait.symm.trans ((prefers.excluded_iff _).mp taken).1)
  have body : (finished calls).isAbstractOffer own = false := by
    rw [isAbstractOffer, bound]
    exact body_of_declared prefers.declared.1 prefers.whole.1
  have wins := winner_of_concrete settled (mem_concretes.mpr ⟨there, left, body⟩)
  have lent := lent_of_undeclared (lowercase name) tidy prefers.undeclared
  rw [wins] at lent
  obtain ⟨new, found, revised⟩ := (table_of_ok tidy ok).lent (lowercase name) _
    (find_declared_eq_none.mpr prefers.undeclared) lent
  refine ⟨new, found, ?_, ?_, ?_⟩
  · rw [revised.name, lentBinding, bound, ownBinding, prefers.spelled.1]
  · rw [revised.method, lentBinding, bound, ownBinding]
  · rw [revised.source, lentBinding, trait]

end Preference

/-- A rule that prefers the method of one used trait to that of another, and spells it as both
declare it, settles the name if the lowercase of the name is its lowercase in ASCII: then the name
does not collide, and goes to the trait that is preferred. Otherwise the name collides. -/
theorem preference_settles (calls : List Added) :
    ∀ t ∈ (finished calls).types, ∀ name a b first second,
      (finished calls).Preference t name a b first second →
      ((∃ d ∈ (after calls).finish.diagnostics, ∃ method,
          d.Names t method ∧ lowercase method = lowercase name) ↔
        asciiLower name ≠ lowercase name) ∧
      (t.composition = .failed ↔
        ∃ d ∈ (after calls).finish.diagnostics, ∃ method, d.Names t method) ∧
      (t.composition ≠ .failed → ∃ table binding, t.composition = .composed table ∧
        MethodTable.get? table name = some binding ∧ binding.name = name ∧
        binding.method = first.id ∧ binding.source = .fromTrait a.id) := by
  intro t member name a b first second prefers
  obtain ⟨order, -, settled⟩ := settled_after calls
  replace settled := settled t member
  have reported : (∃ d ∈ (after calls).finish.diagnostics, ∃ method,
      d.Names t method ∧ lowercase method = lowercase name) ↔ asciiLower name ≠ lowercase name := by
    rw [settled.reported_iff member, ← preference_rivals prefers settled.offered]
    exact collides_iff_rivals settled.offered.tidy
  have failed := (composed_after calls).failed t member
  refine ⟨reported, failed, fun whole => ?_⟩
  have agree : asciiLower name = lowercase name := by
    by_contra differ
    obtain ⟨d, listed, method, names, -⟩ := reported.mpr differ
    exact whole (failed.mpr ⟨d, listed, method, names⟩)
  cases composed : t.composition with
  | pending => exact absurd composed ((composed_after calls).settled t member)
  | failed => exact absurd composed whole
  | composed table =>
    obtain ⟨binding, found, named, method, source⟩ := preference_bound prefers settled.offered agree
      (settled.table_of_composed composed)
    exact ⟨table, binding, rfl, found, named, method, source⟩

/-- Two traits with a method of one name that is not ASCII, and a class with a rule for it. The name
is a capital letter, which is not its own lowercase. -/
def capitalName : Added := .source "capital.php"
  "<?php trait A { function É() {} } trait B { function É() {} } class C { use A, B { A::É insteadof B; } }"

def smallName : Added := .source "small.php"
  "<?php trait A { function é() {} } trait B { function é() {} } class C { use A, B { A::é insteadof B; } }"

theorem capital_name_prefers : asciiLower "É" ≠ lowercase "É" ∧
    ∃ t ∈ (finished [capitalName]).type? 2, ∃ a ∈ (finished [capitalName]).type? 0,
      ∃ b ∈ (finished [capitalName]).type? 1, ∃ first ∈ (finished [capitalName]).callable? 0,
      ∃ second ∈ (finished [capitalName]).callable? 1,
        (finished [capitalName]).Preference t "É" a b first second := by
  decide +kernel

theorem small_name_prefers :
    ∃ t ∈ (finished [smallName]).type? 2, ∃ a ∈ (finished [smallName]).type? 0,
      ∃ b ∈ (finished [smallName]).type? 1, ∃ first ∈ (finished [smallName]).callable? 0,
      ∃ second ∈ (finished [smallName]).callable? 1,
        (finished [smallName]).Preference t "é" a b first second ∧ t.composition ≠ .failed := by
  decide +kernel

theorem preference_settles_accented :
    (∃ t ∈ (finished [capitalName]).type? 2, t.composition = .failed) ∧
      ∃ t ∈ (finished [smallName]).type? 2, ∃ table binding, t.composition = .composed table ∧
        MethodTable.get? table "é" = some binding ∧ binding.source = .fromTrait 0 := by
  obtain ⟨differ, t, foundT, _, -, _, -, _, -, _, -, capital⟩ := capital_name_prefers
  obtain ⟨u, foundU, a, foundA, _, -, _, -, _, -, small, whole⟩ := small_name_prefers
  obtain ⟨reported, failed, -⟩ := preference_settles [capitalName] t
    (Array.mem_of_getElem? foundT) _ _ _ _ _ capital
  obtain ⟨-, -, bound⟩ := preference_settles [smallName] u
    (Array.mem_of_getElem? foundU) _ _ _ _ _ small
  obtain ⟨d, listed, method, names, -⟩ := reported.mpr differ
  obtain ⟨table, binding, composed, found, -, -, source⟩ := bound whole
  have number : a.id = 0 := finished_numbered [smallName] 0 a foundA
  exact ⟨⟨t, foundT, failed.mpr ⟨d, listed, method, names⟩⟩,
    ⟨u, foundU, table, binding, composed, found, number ▸ source⟩⟩

end Assembly

end PhpAnalyser
