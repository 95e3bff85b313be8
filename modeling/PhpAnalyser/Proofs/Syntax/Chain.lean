import Mathlib.Algebra.Ring.Int.Defs
import PhpAnalyser.Proofs.Syntax.Operands
/-!
The table of operators leaves no choice: of the trees that read the same, one obeys it.
-/
namespace PhpAnalyser

def BindingPower.level (p : BindingPower) : Nat := min p.left p.right

def Graded (p : BindingPower) : Prop := ∃ op, Tabled op p

theorem graded_ternary : Graded ternaryPower := ⟨"", tabled_leftward _ 50 (by decide)⟩

section Levels

variable {p q : BindingPower}

theorem Graded.cases (graded : Graded p) :
    (∃ level, level % 10 = 0 ∧ level ≠ 60 ∧ level ≠ 180 ∧ p = .leftward level) ∨
      ∃ level, (level = 60 ∨ level = 180) ∧ p = .rightward level := by
  obtain ⟨op, ⟨level, round, le, other, same⟩ | ⟨same, -⟩ | ⟨same, -⟩ | ⟨same, -⟩⟩ := graded
  · exact .inl ⟨level, round, other, by omega, same⟩
  · exact .inr ⟨60, .inl rfl, same⟩
  · exact .inl ⟨170, rfl, by decide, by decide, same⟩
  · exact .inr ⟨180, .inr rfl, same⟩

/-- An operator that leaves another to its left is of no higher level, and of a lower one if it
leans to the right. -/
theorem level_le_of_left (first : Graded p) (second : Graded q) (lt : p.left < q.right) :
    p.level ≤ q.level ∧ (p.right < p.left → p.level < q.level) := by
  rcases first.cases with ⟨a, -, -, -, rfl⟩ | ⟨a, -, rfl⟩ <;>
    rcases second.cases with ⟨b, -, -, -, rfl⟩ | ⟨b, -, rfl⟩ <;>
      simp only [BindingPower.level, BindingPower.leftward, BindingPower.rightward] at lt ⊢ <;>
        omega

/-- An operator that leaves another to its right is of no higher level, and of a lower one if it
leans to the left. -/
theorem level_le_of_right (first : Graded p) (second : Graded q) (le : p.right ≤ q.left) :
    p.level ≤ q.level ∧ (p.left < p.right → p.level < q.level) := by
  rcases first.cases with ⟨a, _, _, _, rfl⟩ | ⟨a, _, rfl⟩ <;>
    rcases second.cases with ⟨b, _, _, _, rfl⟩ | ⟨b, _, rfl⟩ <;>
      simp only [BindingPower.level, BindingPower.leftward, BindingPower.rightward] at le ⊢ <;>
        omega

/-- The operators of a level lean to the same side. -/
theorem side_of_level (first : Graded p) (second : Graded q) (same : p.level = q.level) :
    p.left < p.right ∨ q.right < q.left := by
  rcases first.cases with ⟨a, _, _, _, rfl⟩ | ⟨a, _, rfl⟩ <;>
    rcases second.cases with ⟨b, _, _, _, rfl⟩ | ⟨b, _, rfl⟩ <;>
      simp only [BindingPower.level, BindingPower.leftward, BindingPower.rightward] at same ⊢ <;>
        omega

end Levels

namespace Word

def power? : Word → Option BindingPower
  | operator op => bindingPower? op
  | question => some ternaryPower
  | _ => none

def turn : Word → Int
  | question => 1
  | colon => -1
  | _ => 0

end Word

def height (words : List Word) : Int := (words.map Word.turn).sum

@[simp] theorem height_nil : height [] = 0 := rfl

@[simp] theorem height_cons (j : Word) (words : List Word) :
    height (j :: words) = j.turn + height words := by simp [height]

@[simp] theorem height_append (u v : List Word) : height (u ++ v) = height u + height v := by
  simp [height]

/-- A word of a list that is put together stands in the first part, between the parts, or in the
second one. -/
theorem cut_cases {a b u v : List α} {x j : α} (same : a ++ x :: b = u ++ j :: v) :
    (a = u ∧ x = j ∧ b = v) ∨ (∃ w, a = u ++ j :: w ∧ v = w ++ x :: b) ∨
      ∃ w, u = a ++ x :: w ∧ b = w ++ j :: v := by
  rcases List.append_eq_append_iff.mp same with ⟨w, rfl, rest⟩ | ⟨w, rfl, rest⟩
  · cases w with
    | nil => simp_all
    | cons y w =>
      obtain ⟨rfl, rfl⟩ := List.cons.inj rest
      exact .inr (.inr ⟨w, rfl, rfl⟩)
  · cases w with
    | nil => simp_all
    | cons y w =>
      obtain ⟨rfl, rfl⟩ := List.cons.inj rest
      exact .inr (.inl ⟨w, rfl, rfl⟩)

theorem part_cases {a b u v : List α} {j : α} (same : a ++ b = u ++ j :: v) :
    (∃ w, u = a ++ w ∧ b = w ++ j :: v) ∨ ∃ w, a = u ++ j :: w ∧ v = w ++ b := by
  rcases List.append_eq_append_iff.mp same with behind | ⟨w, rfl, rest⟩
  · exact .inl behind
  · cases w with
    | nil => exact .inl ⟨[], by simp, rest.symm⟩
    | cons x w =>
      obtain ⟨rfl, rfl⟩ := List.cons.inj rest
      exact .inr ⟨w, rfl, rfl⟩

structure Balanced (words : List Word) : Prop where
  closed : height words = 0
  opened : ∀ u v, words = u ++ v → 0 ≤ height u

namespace Chain

theorem head_reading (e : Chain) : ∃ name rest, e.reading = .name name :: rest := by
  induction e with
  | leaf name => exact ⟨name, [], rfl⟩
  | join op left right first _ =>
    obtain ⟨name, rest, same⟩ := first
    exact ⟨name, _, by rw [reading, same]; rfl⟩
  | choose test middle right first _ _ =>
    obtain ⟨name, rest, same⟩ := first
    exact ⟨name, _, by rw [reading, same]; rfl⟩
  | default test right first _ =>
    obtain ⟨name, rest, same⟩ := first
    exact ⟨name, _, by rw [reading, same]; rfl⟩

/-- A tree that is no leaf: its operator stands at `j`, between its first operand and its last one,
with what the operator encloses. -/
structure Root (e left : Chain) (j : Word) (inner : List Word) (right : Chain) : Prop where
  reading : e.reading = left.reading ++ j :: (inner ++ right.reading)
  power : e.power? = j.power?
  closed : j.turn + height inner = 0
  opened : ∀ u x v, inner = u ++ x :: v → 0 < j.turn + height u

variable {e left right middle : Chain} {j : Word} {inner : List Word}

theorem root_join {op : String} : Root (.join op left right) left (.operator op) [] right where
  reading := rfl
  power := rfl
  closed := rfl
  opened u x v no := by simp at no

theorem root_choose (balanced : Balanced middle.reading) :
    Root (.choose left middle right) left .question (middle.reading ++ [.colon]) right where
  reading := by simp [Chain.reading]
  power := rfl
  closed := by simp [balanced.closed, Word.turn]
  opened u x v same := by
    have cut : middle.reading ++ .colon :: [] = u ++ x :: v := same
    have le : 0 ≤ height u := by
      rcases cut_cases cut with ⟨rfl, -⟩ | ⟨w, before, -⟩ | ⟨w, -, no⟩
      · exact balanced.opened _ [] (by simp)
      · exact balanced.opened u _ before
      · simp at no
    rw [Word.turn]
    omega

theorem root_default : Root (.default left right) left .question [.colon] right where
  reading := rfl
  power := rfl
  closed := rfl
  opened u x v same := by
    have empty : u = [] := by
      cases u with
      | nil => rfl
      | cons y u => simp at same
    rw [empty]
    decide

theorem Root.balanced (root : Root e left j inner right) (first : Balanced left.reading)
    (second : Balanced right.reading) : Balanced e.reading where
  closed := by
    have closed := root.closed
    rw [root.reading]
    simp only [height_append, height_cons, first.closed, second.closed]
    omega
  opened u v same := by
    have closed := root.closed
    rw [root.reading] at same
    rcases List.append_eq_append_iff.mp same with ⟨w, rfl, rest⟩ | ⟨w, before, -⟩
    · cases w with
      | nil => simp [first.closed]
      | cons x w =>
        obtain ⟨rfl, behind⟩ := List.cons.inj rest
        simp only [height_append, height_cons, first.closed]
        rcases List.append_eq_append_iff.mp behind with ⟨w', rfl, last⟩ | ⟨w', inside, -⟩
        · have le := second.opened w' v last
          rw [height_append]
          omega
        · cases w' with
          | nil =>
            rw [List.append_nil] at inside
            rw [inside] at closed
            omega
          | cons y w' =>
            have lt := root.opened w y w' inside
            omega
    · exact first.opened u w before

theorem balanced_reading (e : Chain) : Balanced e.reading := by
  induction e with
  | leaf name =>
    refine ⟨rfl, fun u v same => ?_⟩
    cases u with
    | nil => exact Int.le_refl _
    | cons x u =>
      obtain ⟨rfl, empty⟩ : Word.name name = x ∧ u = [] ∧ v = [] := by
        simpa [reading, eq_comm] using same
      rw [empty.1]
      simp [Word.turn]
  | join op left right first second => exact root_join.balanced first second
  | choose test middle right first inside second =>
    exact (root_choose inside).balanced first second
  | default test right first second => exact root_default.balanced first second

theorem graded_of_power {p : BindingPower} (known : e.power? = some p) : Graded p := by
  cases e with
  | leaf name => cases known
  | join op left right => exact ⟨op, binding_power_tabled known⟩
  | choose test middle right => exact Option.some.inj known ▸ graded_ternary
  | default test right => exact Option.some.inj known ▸ graded_ternary

/-- An operator that nothing encloses is of no lower level than the root of its tree. -/
def RootLowest (e : Chain) : Prop :=
  ∀ u j v q, e.reading = u ++ j :: v → height u = 0 → j.power? = some q →
    ∃ p, e.power? = some p ∧ p.level ≤ q.level

theorem Root.lowest {p : BindingPower} (root : Root e left j inner right)
    (known : e.power? = some p) (fits : Fits p left right) (first : RootLowest left)
    (second : RootLowest right) : RootLowest e := by
  intro u k v q same level power
  refine ⟨p, known, ?_⟩
  have graded := graded_of_power known
  have closed := root.closed
  rw [root.reading] at same
  rcases cut_cases same with ⟨-, rfl, -⟩ | ⟨w, before, -⟩ | ⟨w, rfl, behind⟩
  · rw [← root.power, known] at power
    exact Option.some.inj power ▸ Nat.le_refl _
  · obtain ⟨q', above, le⟩ := first u k w q before level power
    exact Nat.le_trans (level_le_of_left graded (graded_of_power above) (fits.1 q' above)).1 le
  · simp only [height_append, height_cons, (balanced_reading left).closed] at level
    rcases part_cases behind with ⟨w', rfl, last⟩ | ⟨w', inside, -⟩
    · rw [height_append] at level
      obtain ⟨q', above, le⟩ := second w' k v q last (by omega) power
      exact Nat.le_trans (level_le_of_right graded (graded_of_power above) (fits.2 q' above)).1 le
    · have lt := root.opened w k w' inside
      omega

theorem root_lowest (e : Chain) (obeys : e.Obeys) : RootLowest e := by
  induction e with
  | leaf name =>
    intro u j v q same level power
    cases u with
    | nil =>
      obtain ⟨rfl, -⟩ := List.cons.inj same
      cases power
    | cons x u => simp [reading] at same
  | join op left right first second =>
    obtain ⟨⟨p, known, fits⟩, obeysLeft, obeysRight⟩ := obeys
    exact root_join.lowest known fits (first obeysLeft) (second obeysRight)
  | choose test middle right first _ second =>
    obtain ⟨fits, obeysLeft, -, obeysRight⟩ := obeys
    exact (root_choose (balanced_reading middle)).lowest rfl fits (first obeysLeft)
      (second obeysRight)
  | default test right first second =>
    obtain ⟨fits, obeysLeft, obeysRight⟩ := obeys
    exact root_default.lowest rfl fits (first obeysLeft) (second obeysRight)

structure Parsed (e : Chain) (p : BindingPower) (left : Chain) (j : Word) (inner : List Word)
    (right : Chain) : Prop extends Root e left j inner right where
  known : e.power? = some p
  fits : Fits p left right
  first : left.Obeys
  second : right.Obeys

/-- The first operand of a tree cannot go beyond the root of another tree with the same reading. -/
theorem Parsed.no_further {e e' left left' right right' : Chain} {p p' : BindingPower} {j j' : Word}
    {inner inner' w : List Word} (one : Parsed e p left j inner right)
    (other : Parsed e' p' left' j' inner' right') (further : left'.reading = left.reading ++ j :: w)
    (rest : inner ++ right.reading = w ++ j' :: (inner' ++ right'.reading)) : False := by
  have level : j.turn + height w = 0 := by
    have closed := (balanced_reading left').closed
    rw [further] at closed
    simpa [(balanced_reading left).closed] using closed
  have closed := one.closed
  rcases part_cases rest with ⟨w', rfl, last⟩ | ⟨w', inside, -⟩
  · rw [height_append] at level
    have power := one.power.symm.trans one.known
    have power' := other.power.symm.trans other.known
    obtain ⟨q, above, le⟩ := root_lowest right one.second w' j' _ p' last (by omega) power'
    obtain ⟨q', above', le'⟩ := root_lowest left' other.first left.reading j _ p further
      (balanced_reading left).closed power
    have graded := graded_of_power one.known
    have graded' := graded_of_power other.known
    have high := level_le_of_right graded (graded_of_power above) (one.fits.2 q above)
    have low := level_le_of_left graded' (graded_of_power above') (other.fits.1 q' above')
    have side := side_of_level graded graded' (by omega)
    omega
  · have lt := one.opened w j' w' inside
    omega

theorem Parsed.cut {e e' left left' right right' : Chain} {p p' : BindingPower} {j j' : Word}
    {inner inner' : List Word} (one : Parsed e p left j inner right)
    (other : Parsed e' p' left' j' inner' right') (same : e.reading = e'.reading) :
    left.reading = left'.reading ∧ j = j' ∧
      inner ++ right.reading = inner' ++ right'.reading := by
  rw [one.reading, other.reading] at same
  rcases cut_cases same with here | ⟨w, further, rest⟩ | ⟨w, further, rest⟩
  · exact here
  · exact (other.no_further one further rest).elim
  · exact (one.no_further other further rest).elim

theorem Obeys.join {op : String} (obeys : (Chain.join op left right).Obeys) :
    ∃ p, Parsed (.join op left right) p left (.operator op) [] right := by
  obtain ⟨⟨p, known, fits⟩, first, second⟩ := obeys
  exact ⟨p, root_join, known, fits, first, second⟩

theorem Obeys.choose (obeys : (Chain.choose left middle right).Obeys) :
    Parsed (.choose left middle right) ternaryPower left .question (middle.reading ++ [.colon])
      right :=
  ⟨root_choose (balanced_reading middle), rfl, obeys.1, obeys.2.1, obeys.2.2.2⟩

theorem Obeys.default (obeys : (Chain.default left right).Obeys) :
    Parsed (.default left right) ternaryPower left .question [.colon] right :=
  ⟨root_default, rfl, obeys.1, obeys.2.1, obeys.2.2⟩

theorem Root.not_leaf {name : String} (root : Root e left j inner right) :
    e.reading ≠ (Chain.leaf name).reading := by
  obtain ⟨first, rest, head⟩ := head_reading left
  rw [root.reading, head, Chain.reading]
  simp

/-- What a question mark encloses is not what a colon behind it leaves out. -/
theorem choose_ne_default {rest rest' : List Word} :
    middle.reading ++ .colon :: rest ≠ .colon :: rest' := by
  obtain ⟨first, more, head⟩ := head_reading middle
  rw [head]
  simp

/-- The colon of a question mark is the first one that closes it. -/
theorem middle_cut {middle' : Chain} {rest rest' : List Word}
    (same : middle.reading ++ .colon :: rest = middle'.reading ++ .colon :: rest') :
    middle.reading = middle'.reading ∧ rest = rest' := by
  have early {m m' : Chain} {w : List Word} (further : m'.reading = m.reading ++ .colon :: w) :
      False := by
    have le := (balanced_reading m').opened (m.reading ++ [.colon]) w (by simp [further])
    simp [(balanced_reading m).closed, Word.turn] at le
  rcases cut_cases same with ⟨here, -, behind⟩ | ⟨w, further, -⟩ | ⟨w, further, -⟩
  · exact ⟨here, behind⟩
  · exact (early further).elim
  · exact (early further).elim

/-- The table leaves one tree for a chain. -/
theorem unique {e e' : Chain} (obeys : e.Obeys) (obeys' : e'.Obeys)
    (same : e.reading = e'.reading) : e = e' := by
  induction e generalizing e' with
  | leaf name =>
    cases e' with
    | leaf name' => simpa [reading] using same
    | join op left right =>
      obtain ⟨p, parsed⟩ := obeys'.join
      exact (parsed.not_leaf same.symm).elim
    | choose test middle right => exact (obeys'.choose.not_leaf same.symm).elim
    | default test right => exact (obeys'.default.not_leaf same.symm).elim
  | join op left right first second =>
    obtain ⟨p, parsed⟩ := obeys.join
    cases e' with
    | leaf name => exact (parsed.not_leaf same).elim
    | join op' left' right' =>
      obtain ⟨p', parsed'⟩ := obeys'.join
      obtain ⟨before, joint, behind⟩ := parsed.cut parsed' same
      rw [first parsed.first parsed'.first before, second parsed.second parsed'.second behind,
        Word.operator.inj joint]
    | choose test middle right =>
      obtain ⟨-, joint, -⟩ := parsed.cut obeys'.choose same
      cases joint
    | default test right =>
      obtain ⟨-, joint, -⟩ := parsed.cut obeys'.default same
      cases joint
  | choose test middle right first inside second =>
    have parsed := obeys.choose
    cases e' with
    | leaf name => exact (parsed.not_leaf same).elim
    | join op left right =>
      obtain ⟨p, parsed'⟩ := obeys'.join
      obtain ⟨-, joint, -⟩ := parsed.cut parsed' same
      cases joint
    | choose test' middle' right' =>
      have parsed' := obeys'.choose
      obtain ⟨before, -, behind⟩ := parsed.cut parsed' same
      simp only [List.append_assoc, List.singleton_append] at behind
      obtain ⟨between, behind⟩ := middle_cut behind
      rw [first parsed.first parsed'.first before, inside obeys.2.2.1 obeys'.2.2.1 between,
        second parsed.second parsed'.second behind]
    | default test' right' =>
      obtain ⟨-, -, behind⟩ := parsed.cut obeys'.default same
      simp only [List.append_assoc, List.singleton_append] at behind
      exact (choose_ne_default behind).elim
  | default test right first second =>
    have parsed := obeys.default
    cases e' with
    | leaf name => exact (parsed.not_leaf same).elim
    | join op left right =>
      obtain ⟨p, parsed'⟩ := obeys'.join
      obtain ⟨-, joint, -⟩ := parsed.cut parsed' same
      cases joint
    | choose test' middle' right' =>
      obtain ⟨-, -, behind⟩ := parsed.cut obeys'.choose same
      simp only [List.append_assoc, List.singleton_append] at behind
      exact (choose_ne_default behind.symm).elim
    | default test' right' =>
      have parsed' := obeys'.default
      obtain ⟨before, -, behind⟩ := parsed.cut parsed' same
      rw [first parsed.first parsed'.first before,
        second parsed.second parsed'.second (List.cons.inj behind).2]

end Chain

section Denotes

variable {tokens : Array Token} {loose : List Nat} {nodes : Array Node} {i : Nat} {n : Node}
  {e : Chain}

theorem power_of_joint {op : String} (joint : isJoint op) :
    ∃ p, bindingPower? op = some p ∧ op ≠ "instanceof" := by
  simp only [isJoint, Bool.and_eq_true, decide_eq_true_eq] at joint
  obtain ⟨p, known⟩ := Option.isSome_iff_exists.mp joint.1
  exact ⟨p, known, joint.2⟩

theorem kind_at_of_eq (found : nodes[i]? = some n) : kindAt nodes i = some n.kind := by
  rw [kindAt, found, Option.map_some]

theorem power_at_of_eq (found : nodes[i]? = some n) : powerAt nodes i = n.kind.power? := by
  rw [powerAt, kind_at_of_eq found, Option.bind_some]

/-- The root of a tree binds as its operator does, and is no type test. -/
theorem Denotes.root (denotes : Denotes nodes i e) :
    powerAt nodes i = e.power? ∧ kindAt nodes i ≠ some .instanceOf := by
  cases denotes with
  | leaf found kind =>
    rw [power_at_of_eq found, kind_at_of_eq found, kind]
    exact ⟨rfl, by simp⟩
  | join found kind joint =>
    obtain ⟨p, known, other⟩ := power_of_joint joint
    rw [power_at_of_eq found, kind_at_of_eq found, kind]
    refine ⟨(binary_kind_power known).trans known.symm, fun same => other ?_⟩
    have operator := binary_kind_operator ‹String›
    rw [Option.some.inj same] at operator
    exact (Option.some.inj operator).symm
  | choose found kind =>
    rw [power_at_of_eq found, kind_at_of_eq found, kind]
    exact ⟨rfl, by simp⟩
  | default found kind =>
    rw [power_at_of_eq found, kind_at_of_eq found, kind]
    exact ⟨rfl, by simp⟩

/-- The operands of a node are held as the powers of its operator ask. -/
theorem Lawful.fits {a b : Nat} {p : BindingPower} {left right : Chain}
    (lawful : Lawful tokens loose nodes i n) (power : n.kind.power? = some p)
    (head : n.children.head? = some a) (getLast : n.children.getLast? = some b)
    (first : Denotes nodes a left) (second : Denotes nodes b right) : Chain.Fits p left right := by
  constructor
  · intro q known
    exact lawful.first p q a power head first.root.2 (first.root.1.trans known)
  · intro q known
    exact lawful.last p q b power getLast (second.root.1.trans known)

theorem Denotes.obeys (lawful : ∀ i n, nodes[i]? = some n → Lawful tokens loose nodes i n)
    (denotes : Denotes nodes i e) : e.Obeys := by
  induction denotes with
  | leaf => exact True.intro
  | join found kind joint children first second obeysLeft obeysRight =>
    obtain ⟨p, known, -⟩ := power_of_joint joint
    refine ⟨⟨p, known, ?_⟩, obeysLeft, obeysRight⟩
    exact (lawful _ _ found).fits (kind ▸ binary_kind_power known) (by rw [children]; rfl)
      (by rw [children]; rfl) first second
  | choose found kind children first _ third obeysLeft obeysMiddle obeysRight =>
    refine ⟨?_, obeysLeft, obeysMiddle, obeysRight⟩
    exact (lawful _ _ found).fits (kind ▸ rfl) (by rw [children]; rfl) (by rw [children]; rfl)
      first third
  | default found kind children first second obeysLeft obeysRight =>
    refine ⟨?_, obeysLeft, obeysRight⟩
    exact (lawful _ _ found).fits (kind ▸ rfl) (by rw [children]; rfl) (by rw [children]; rfl)
      first second

end Denotes

end PhpAnalyser
