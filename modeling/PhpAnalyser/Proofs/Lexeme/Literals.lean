import PhpAnalyser.Proofs.Lexeme.Lexed
/-!
Numbers, strings and heredocs are read again from a text that is cut off where they end, when a
line break takes the place of what stood behind them.
-/
namespace PhpAnalyser

namespace Lexeme

def cut (n : Nat) (text tail : List Char) : List Char := text.take n ++ '\n' :: tail

@[simp] theorem cut_zero (text tail : List Char) : cut 0 text tail = '\n' :: tail := rfl

@[simp] theorem cut_nil (n : Nat) (tail : List Char) : cut n [] tail = '\n' :: tail := by
  simp [cut]

@[simp] theorem cut_cons (n : Nat) (c : Char) (text tail : List Char) :
    cut (n + 1) (c :: text) tail = c :: cut n text tail := rfl

theorem cut_append (n : Nat) (line rest tail : List Char) :
    cut (line.length + n) (line ++ rest) tail = line ++ cut n rest tail := by
  simp [cut, List.take_append, List.take_of_length_le]

theorem drop_cut {k n : Nat} {text : List Char} (tail : List Char) (le : k ≤ n)
    (bound : k ≤ text.length) : (cut n text tail).drop k = cut (n - k) (text.drop k) tail := by
  have inside : k ≤ (text.take n).length := by
    rw [List.length_take]
    exact Nat.le_min.mpr ⟨le, bound⟩
  rw [cut, List.drop_append_of_le_length inside, List.drop_take]
  rfl

theorem take_cut {n : Nat} {text : List Char} (tail : List Char) (bound : n ≤ text.length) :
    (cut n text tail).take n = text.take n := by
  rw [cut, List.take_append_of_le_length (by simp [bound]), List.take_take, Nat.min_self]

theorem take_while_cut {p : Char → Bool} (stops : p '\n' = false) (n : Nat)
    (text tail : List Char) : (cut n text tail).takeWhile p = (text.takeWhile p).take n := by
  induction text generalizing n with
  | nil => simp [stops]
  | cons c text ih =>
    cases n with
    | zero => simp [stops]
    | succ n => by_cases inside : p c <;> simp [inside, ih]

theorem prefix_length {start text : List Char} (h : start.isPrefixOf text = true) :
    start.length ≤ text.length :=
  (List.isPrefixOf_iff_prefix.mp h).length_le

theorem prefix_cut {start : List Char} (solid : '\n' ∉ start) (n : Nat)
    (text tail : List Char) :
    start.isPrefixOf (cut n text tail) = (start.isPrefixOf text && decide (start.length ≤ n)) := by
  induction start generalizing n text with
  | nil => simp
  | cons s start ih =>
    have differs : (s == '\n') = false :=
      beq_false_of_ne fun same => solid (same ▸ List.mem_cons_self)
    have solid : '\n' ∉ start := fun inside => solid (List.mem_cons_of_mem s inside)
    cases text with
    | nil => simp [List.isPrefixOf, differs]
    | cons c text =>
      cases n with
      | zero => simp [List.isPrefixOf, differs]
      | succ n => simp [List.isPrefixOf, ih solid, Bool.and_assoc]

theorem starts_with_cut {start : String} (solid : '\n' ∉ start.toList) (n : Nat)
    (text tail : List Char) :
    startsWith (cut n text tail) start = (startsWith text start && decide (start.length ≤ n)) :=
  prefix_cut solid n text tail

theorem head_cut {p : Char → Bool} (stops : p '\n' = false) (n : Nat) (text tail : List Char) :
    (cut n text tail).head?.any p = (text.head?.any p && decide (0 < n)) := by
  cases text with
  | nil => simp [stops]
  | cons c text => cases n <;> simp [stops]

/-- What `read` says about a text is settled by its first `n` characters when a line break
stands behind them. -/
structure Settled {α : Type} (read : List Char → α) (text : List Char) (n : Nat) : Prop where
  bound : n ≤ text.length
  same : ∀ tail, read (cut n text tail) = read text

structure Stops (length : List Char → Nat) : Prop where
  le : ∀ text, length text ≤ text.length
  cut : ∀ {n text} tail, length text ≤ n → length (cut n text tail) = length text

namespace Stops

variable {first second : List Char → Nat}

theorem run {p : Char → Bool} (stops : p '\n' = false) : Stops (run p) where
  le _ := (List.takeWhile_sublist p).length_le
  cut tail le := by rw [Lexeme.run, take_while_cut stops, List.take_of_length_le le, Lexeme.run]

/-- One length behind the other. -/
theorem append (h : Stops first) (k : Stops second) :
    Stops fun text => first text + second (text.drop (first text)) where
  le text := by
    have := h.le text
    have := k.le (text.drop (first text))
    rw [List.length_drop] at this
    omega
  cut {n text} tail le := by
    have front : first text ≤ n := by omega
    have back : second (text.drop (first text)) ≤ n - first text := by omega
    rw [h.cut tail front, drop_cut tail front (h.le text), k.cut tail back]

theorem front (h : Stops first) (n : Nat) (text tail : List Char) :
    first (Lexeme.cut (first text + n) text tail) = first text :=
  h.cut tail (Nat.le_add_right ..)

theorem behind (h : Stops first) (n : Nat) (text tail : List Char) :
    (Lexeme.cut (first text + n) text tail).drop (first (Lexeme.cut (first text + n) text tail)) =
      Lexeme.cut n (text.drop (first text)) tail := by
  rw [h.front, drop_cut tail (Nat.le_add_right ..) (h.le text), Nat.add_sub_cancel_left]

theorem max (h : Stops first) (k : Stops second) :
    Stops fun text => Nat.max (first text) (second text) where
  le text := Nat.max_le.mpr ⟨h.le text, k.le text⟩
  cut tail le := by
    rw [h.cut tail (Nat.le_trans (Nat.le_max_left ..) le),
      k.cut tail (Nat.le_trans (Nat.le_max_right ..) le)]

end Stops

theorem run_le_run {p q : Char → Bool} (weaker : ∀ c, p c = true → q c = true)
    (text : List Char) : run p text ≤ run q text := by
  induction text with
  | nil => exact Nat.le_refl 0
  | cons c text ih =>
    by_cases inside : p c = true
    · simpa [run, inside, weaker c inside] using ih
    · simp [run, inside]

def marked (mark : Char → Bool) (needed length : List Char → Nat) : List Char → Nat
  | [] => 0
  | c :: text => if mark c && 0 < needed text then length text + 1 else 0

theorem Stops.marked {mark : Char → Bool} {needed length : List Char → Nat} (h : Stops needed)
    (k : Stops length) (part : ∀ text, needed text ≤ length text) (stops : mark '\n' = false) :
    Stops (marked mark needed length) where
  le text := by
    cases text with
    | nil => exact Nat.le_refl 0
    | cons c text =>
      rw [Lexeme.marked]
      split
      · exact Nat.succ_le_succ (k.le text)
      · exact Nat.zero_le _
  cut {n text} tail le := by
    cases text with
    | nil => simp [Lexeme.marked, stops]
    | cons c text =>
      by_cases counts : (mark c && 0 < needed text) = true
      · rw [Lexeme.marked, if_pos counts] at le
        obtain ⟨n, rfl⟩ := Nat.exists_eq_add_of_le' (Nat.le_trans (Nat.le_add_left 1 _) le)
        have inside := Nat.le_of_succ_le_succ le
        simp only [cut_cons, Lexeme.marked, k.cut tail inside,
          h.cut tail (Nat.le_trans (part text) inside)]
      · cases n with
        | zero => simp [Lexeme.marked, stops, counts]
        | succ n =>
          cases here : mark c with
          | false => simp [Lexeme.marked, here]
          | true =>
            have none : needed text = 0 := by simpa [here] using counts
            have same := h.cut (n := n) tail (none ▸ Nat.zero_le n)
            simp [Lexeme.marked, none, same]

theorem fraction_eq :
    fractionLength = marked (· == '.') (run Char.isDigit) (run digitOrLine) := by
  funext text
  unfold fractionLength
  split
  · rename_i d text
    by_cases digit : d.isDigit <;> simp [marked, run, digitOrLine, digit]
  · rename_i other
    rcases text with _ | ⟨c, _ | ⟨d, text⟩⟩
    · rfl
    · simp [marked, run]
    · have : ¬(c = '.') := fun point => other d text (by rw [point])
      simp [marked, this]

def isExponent (c : Char) : Bool := c == 'e' || c == 'E'

def isSign (c : Char) : Bool := c == '+' || c == '-'

def signed (text : List Char) : Nat :=
  Nat.max (run Char.isDigit text) (marked isSign (run Char.isDigit) (run Char.isDigit) text)

theorem sign_of_digit {c : Char} (digit : c.isDigit = true) : isSign c = false := by
  cases sign : isSign c with
  | false => rfl
  | true =>
    simp only [isSign, Bool.or_eq_true, beq_iff_eq] at sign
    rcases sign with rfl | rfl <;> cases digit

theorem exponent_eq : exponentLength = marked isExponent signed signed := by
  funext text
  rcases text with _ | ⟨e, _ | ⟨s, text⟩⟩
  · rfl
  · simp [marked, exponentLength, signed, run]
  have unsigned : (s == '+' || s == '-') = isSign s := rfl
  simp only [exponentLength, marked, isExponent, unsigned]
  by_cases mark : (e == 'e' || e == 'E') = true
  · by_cases digit : s.isDigit = true
    · simp [mark, digit, signed, marked, run, sign_of_digit digit]
    · rcases text with _ | ⟨d, text⟩
      · simp [digit, signed, marked, run]
      · by_cases next : d.isDigit <;> by_cases sign : isSign s <;>
          simp [mark, digit, next, sign, signed, marked, run]
  · simp [mark]

def fractional (text : List Char) : Nat :=
  fractionLength text + exponentLength (text.drop (fractionLength text))

theorem decimal_eq (whole : Nat) (text : List Char) :
    decimal whole text =
      (if fractional text = 0 then .integer else .float, whole + fractional text) := by
  simp only [decimal, Nat.add_assoc]
  rfl

namespace Stops

theorem signed : Stops signed :=
  (run rfl).max ((run rfl).marked (run rfl) (fun _ => Nat.le_refl _) rfl)

theorem exponent : Stops exponentLength :=
  exponent_eq ▸ signed.marked signed (fun _ => Nat.le_refl _) rfl

theorem fraction : Stops fractionLength :=
  fraction_eq ▸ (run rfl).marked (run rfl)
    (run_le_run fun c digit => by simp [digitOrLine, digit]) rfl

theorem fractional : Stops fractional := fraction.append exponent

end Stops

def plain (text : List Char) : TokenKind × Nat :=
  decimal (run digitOrLine text) (text.drop (run digitOrLine text))

theorem plain_settled (text : List Char) : Settled plain text (plain text).2 := by
  have digits : Stops (run digitOrLine) := .run rfl
  have split (text : List Char) : plain text = _ := decimal_eq _ _
  constructor
  · simpa only [split] using (digits.append Stops.fractional).le text
  · intro tail
    simp only [split]
    rw [digits.behind, digits.front, Stops.fractional.cut tail (Nat.le_refl _)]

def baseDigits (first second : Char) : Option (Char → Bool) :=
  if first = '0' then
    if second = 'x' ∨ second = 'X' then some hexDigitOrLine
    else if second = 'b' ∨ second = 'B' then some binaryDigitOrLine
    else none
  else none

theorem base_digits_stop {first second : Char} {digits : Char → Bool}
    (found : baseDigits first second = some digits) : digits '\n' = false := by
  unfold baseDigits at found
  split at found
  · split at found
    · cases found
      rfl
    · split at found <;> cases found
      rfl
  · cases found

theorem base_digits_break (first : Char) : baseDigits first '\n' = none := by
  simp [baseDigits]

theorem number_nil (first : Char) : number first [] = plain [] := by
  unfold number
  split <;> first | contradiction | rfl

theorem number_cons (first second : Char) (text : List Char) :
    number first (second :: text) =
      match baseDigits first second with
      | some digits => (.integer, run digits text + 1)
      | none => plain (second :: text) := by
  unfold number baseDigits
  split <;> simp_all [plain]

theorem number_settled (first : Char) (text : List Char) :
    Settled (number first) text (number first text).2 := by
  have broken (tail : List Char) : number first ('\n' :: tail) = plain ('\n' :: tail) := by
    rw [number_cons, base_digits_break]
  cases text with
  | nil =>
    have settled := plain_settled []
    rw [number_nil]
    exact ⟨settled.bound, fun tail => by simpa [broken, number_nil] using settled.same tail⟩
  | cons second text =>
    cases base : baseDigits first second with
    | some digits =>
      have stops : Stops (run digits) := .run (base_digits_stop base)
      simp only [number_cons, base]
      constructor
      · exact Nat.succ_le_succ (stops.le text)
      · intro tail
        simp only [cut_cons, number_cons, base, stops.cut tail (Nat.le_refl _)]
    | none =>
      have same : number first (second :: text) = plain (second :: text) := by
        rw [number_cons, base]
      have cuts (n : Nat) (tail : List Char) :
          number first (cut n (second :: text) tail) = plain (cut n (second :: text) tail) := by
        cases n with
        | zero => exact broken tail
        | succ n => rw [cut_cons, number_cons, base]
      have settled := plain_settled (second :: text)
      rw [same]
      exact ⟨settled.bound, fun tail => by rw [cuts, same, settled.same tail]⟩

theorem point_number_settled (text : List Char) :
    Settled pointNumber text (pointNumber text).2 := by
  have digits : Stops (run digitOrLine) := .run rfl
  constructor
  · exact (digits.append Stops.exponent).le text
  · intro tail
    have same := (digits.append Stops.exponent).cut tail (Nat.le_refl (pointNumber text).2)
    exact congrArg (TokenKind.float, ·) same

/-- The strings that are open behind a character of a string; `ahead` tells whether a variable
comes next. -/
def openBehind (quote : Char) (braces : Nat) (outer : List (Char × Nat)) (c : Char)
    (ahead : Bool) : List (Char × Nat) :=
  if c == '{' && quote != '\'' && ahead then (quote, braces + 1) :: outer
  else if c == '}' && braces > 0 then (quote, braces - 1) :: outer
  else if (c == '\'' || c == '"') && braces > 0 && c != quote then
    (c, 0) :: (quote, braces) :: outer
  else if c == quote && braces == 0 then outer
  else (quote, braces) :: outer

theorem quoted_length_cons {c : Char} (unescaped : c ≠ '\\') (quote : Char) (braces : Nat)
    (outer : List (Char × Nat)) (text : List Char) :
    quotedLength ((quote, braces) :: outer) (c :: text) =
      (quotedLength (openBehind quote braces outer c (startsWith text "$")) text).map (· + 1) := by
  rw [quotedLength, openBehind]
  · exact fun same => absurd same unescaped
  · exact fun _ _ same => absurd same unescaped

/-- A variable ahead matters only where a string stays open. -/
theorem open_behind_ahead (quote : Char) (braces : Nat) (outer : List (Char × Nat)) (c : Char) :
    openBehind quote braces outer c true ≠ [] ∨
      openBehind quote braces outer c true = openBehind quote braces outer c false := by
  unfold openBehind
  by_cases brace : (c == '{' && quote != '\'') = true <;> simp [brace]

theorem quoted_length_pos {strings : List (Char × Nat)} {text : List Char} {n : Nat}
    (found : quotedLength strings text = some n) (inside : strings ≠ []) : 0 < n := by
  fun_induction quotedLength strings text with
  | case1 => exact absurd rfl inside
  | case2 => cases found
  | case3 => cases found
  | case4 =>
    obtain ⟨k, -, rfl⟩ := Option.map_eq_some_iff.mp found
    exact Nat.succ_pos _
  | case5 =>
    obtain ⟨k, -, rfl⟩ := Option.map_eq_some_iff.mp found
    exact Nat.succ_pos _

theorem open_behind_cut {quote : Char} {braces : Nat} {outer : List (Char × Nat)} {c : Char}
    {text : List Char} {n : Nat} (tail : List Char)
    (found : quotedLength (openBehind quote braces outer c (startsWith text "$")) text = some n) :
    openBehind quote braces outer c (startsWith (cut n text tail) "$") =
      openBehind quote braces outer c (startsWith text "$") := by
  rw [starts_with_cut (by decide)]
  cases ahead : startsWith text "$" with
  | false => rfl
  | true =>
    rw [ahead] at found
    rcases open_behind_ahead quote braces outer c with inside | same
    · have pos : "$".length ≤ n := quoted_length_pos found inside
      rw [decide_eq_true pos]
      rfl
    · cases decide ("$".length ≤ n) <;> simp [same]

theorem quoted_length_settled {strings : List (Char × Nat)} {text : List Char} {n : Nat}
    (found : quotedLength strings text = some n) : Settled (quotedLength strings) text n := by
  fun_induction quotedLength strings text generalizing n with
  | case1 text =>
    cases found
    exact ⟨Nat.zero_le _, fun tail => by simp [quotedLength]⟩
  | case2 => cases found
  | case3 => cases found
  | case4 _ _ c text ih =>
    obtain ⟨k, inner, rfl⟩ := Option.map_eq_some_iff.mp found
    have settled := ih inner
    constructor
    · exact Nat.add_le_add_right settled.bound 2
    · intro tail
      simp only [cut_cons, quotedLength, settled.same tail, inner]
  | case5 =>
    rename_i quote braces outer c text alone escape strings ih
    obtain ⟨k, inner, rfl⟩ := Option.map_eq_some_iff.mp found
    have unescaped : c ≠ '\\' := by
      intro same
      cases text with
      | nil => exact alone same rfl
      | cons d text => exact escape d text same rfl
    have settled := ih inner
    constructor
    · exact Nat.succ_le_succ settled.bound
    · intro tail
      rw [cut_cons, quoted_length_cons unescaped, quoted_length_cons unescaped,
        open_behind_cut tail inner]
      exact congrArg (Option.map (· + 1)) (settled.same tail)

theorem quoted_settled {quote : Char} {text : List Char}
    (sound : (quoted quote text).1.isError = false) :
    Settled (quoted quote) text (quoted quote text).2 := by
  cases found : quotedLength [(quote, 0)] text with
  | none => simp [quoted, found, TokenKind.isError] at sound
  | some n =>
    have settled := quoted_length_settled found
    simp only [quoted, found]
    exact ⟨settled.bound, fun tail => by simp only [quoted, settled.same tail, found]⟩

section Heredoc

variable {label : List Char}

/-- How far one has to look to see whether a heredoc ends on a line. -/
def endReach (label line : List Char) : Nat :=
  run spaceOrTab line +
    if label.isPrefixOf (line.drop (run spaceOrTab line)) then
      label.length + run continuesName (line.drop (run spaceOrTab line + label.length))
    else 0

theorem end_reach_le (label line : List Char) : endReach label line ≤ line.length := by
  have indent := Stops.le (.run (p := spaceOrTab) rfl) line
  unfold endReach
  split
  · rename_i long
    have named := prefix_length long
    have name : Stops (run continuesName) := .run rfl
    have behind := name.le (line.drop (run spaceOrTab line + label.length))
    rw [List.length_drop] at named behind
    omega
  · exact indent

theorem end_reach_of_end {line : List Char} {n : Nat} (found : heredocEnd label line = some n) :
    endReach label line = n := by
  unfold heredocEnd at found
  dsimp only at found
  split at found
  · rename_i ends
    rw [Bool.and_eq_true, decide_eq_true_eq, List.drop_drop] at ends
    cases found
    simp [endReach, ends]
  · cases found

theorem heredoc_end_cut (solid : '\n' ∉ label) {line : List Char} {n : Nat} (tail : List Char)
    (enough : endReach label line ≤ n) :
    heredocEnd label (cut n line tail) = heredocEnd label line := by
  have indent : Stops (run spaceOrTab) := .run rfl
  have name : Stops (run continuesName) := .run rfl
  have first : run spaceOrTab line ≤ n := Nat.le_trans (Nat.le_add_right ..) enough
  simp only [heredocEnd]
  rw [indent.cut tail first, drop_cut tail first (indent.le line), prefix_cut solid]
  cases long : label.isPrefixOf (line.drop (run spaceOrTab line)) with
  | false => rfl
  | true =>
    simp only [endReach, long, if_true] at enough
    rw [decide_eq_true (by omega), drop_cut tail (by omega) (prefix_length long),
      name.cut tail (by rw [List.drop_drop]; omega)]
    rfl

/-- What stands behind the line does not decide whether a heredoc ends on it. -/
theorem heredoc_end_line (solid : '\n' ∉ label) (line tail : List Char) :
    heredocEnd label (line ++ '\n' :: tail) = heredocEnd label line := by
  have whole : line ++ '\n' :: tail = cut line.length line tail := by rw [cut, List.take_length]
  rw [whole, heredoc_end_cut solid tail (end_reach_le label line)]

/-- A heredoc ends behind the end of the line that it starts in. -/
theorem heredoc_length_line {text : List Char} {n : Nat}
    (found : heredocLength label text = some n) :
    ∃ line rest, text = line ++ '\n' :: rest ∧ line.length < n := by
  fun_induction heredocLength label text generalizing n with
  | case1 => cases found
  | case2 c text k ends =>
    cases found
    split at ends
    · rename_i lineBreak
      exact ⟨[], text, by rw [lineBreak]; rfl, Nat.succ_pos k⟩
    · cases ends
  | case3 c text none ih =>
    obtain ⟨k, inner, rfl⟩ := Option.map_eq_some_iff.mp found
    obtain ⟨line, rest, rfl, before⟩ := ih inner
    exact ⟨c :: line, rest, rfl, Nat.succ_lt_succ before⟩

theorem heredoc_length_settled (solid : '\n' ∉ label) {text : List Char} {n : Nat}
    (found : heredocLength label text = some n) : Settled (heredocLength label) text n := by
  fun_induction heredocLength label text generalizing n with
  | case1 => cases found
  | case2 c text k ends =>
    cases found
    have lineBreak : c = '\n' := by
      by_contra other
      simp [other] at ends
    simp only [lineBreak, if_true] at ends
    have reach := end_reach_of_end ends
    constructor
    · exact Nat.succ_le_succ (reach ▸ end_reach_le label text)
    · intro tail
      have same := heredoc_end_cut solid tail (Nat.le_of_eq reach)
      simp [cut_cons, heredocLength, lineBreak, same, ends]
  | case3 c text none ih =>
    obtain ⟨k, inner, rfl⟩ := Option.map_eq_some_iff.mp found
    have settled := ih inner
    constructor
    · exact Nat.succ_le_succ settled.bound
    · intro tail
      obtain ⟨line, rest, same, before⟩ := heredoc_length_line inner
      obtain ⟨m, rfl⟩ := Nat.exists_eq_add_of_lt before
      have still : heredocEnd label (cut (line.length + m + 1) text tail) =
          heredocEnd label text := by
        rw [same, Nat.add_assoc, cut_append, cut_cons, heredoc_end_line solid,
          heredoc_end_line solid]
      simp only [cut_cons, heredocLength, still, none, settled.same tail, inner]

end Heredoc

/-! The head of a heredoc is its label, perhaps between two quotes. -/

def labelQuotes (start : List Char) : Nat :=
  if startsWith start "'" || startsWith start "\"" then 1 else 0

def labelOf (start : List Char) : List Char :=
  (start.drop (labelQuotes start)).takeWhile continuesName

def behindLabel (start : List Char) : List Char :=
  (start.drop (labelQuotes start)).drop (labelOf start).length

def openingLength (start : List Char) : Nat :=
  labelQuotes start + (labelOf start).length + labelQuotes start

theorem label_solid (start : List Char) : '\n' ∉ labelOf start := by
  intro inside
  exact absurd (List.all_eq_true.mp List.all_takeWhile _ inside) (by decide)

theorem label_quotes_cut {n : Nat} (pos : 0 < n) (start tail : List Char) :
    labelQuotes (cut n start tail) = labelQuotes start := by
  have within : decide ("'".length ≤ n) = true ∧ decide ("\"".length ≤ n) = true :=
    ⟨decide_eq_true pos, decide_eq_true pos⟩
  have single : '\n' ∉ "'".toList := by decide
  have double : '\n' ∉ "\"".toList := by decide
  simp only [labelQuotes, starts_with_cut single, starts_with_cut double, within, Bool.and_true]

theorem label_quotes_le (start : List Char) : labelQuotes start ≤ start.length := by
  unfold labelQuotes
  split
  · rename_i quoted
    rcases Bool.or_eq_true_iff.mp quoted with single | double
    · exact prefix_length single
    · exact prefix_length double
  · exact Nat.zero_le _

theorem label_cut {n : Nat} (pos : 0 < n) {start : List Char} (tail : List Char)
    (le : labelQuotes start + (labelOf start).length ≤ n) :
    labelOf (cut n start tail) = labelOf start := by
  rw [labelOf, label_quotes_cut pos, drop_cut tail (by omega) (label_quotes_le start),
    take_while_cut (by decide)]
  exact List.take_of_length_le (Nat.le_sub_of_add_le' le)

theorem behind_label_cut {n : Nat} (pos : 0 < n) {start : List Char} (tail : List Char)
    (le : labelQuotes start + (labelOf start).length ≤ n) :
    behindLabel (cut n start tail) =
      cut (n - labelQuotes start - (labelOf start).length) (behindLabel start) tail := by
  rw [behindLabel, label_quotes_cut pos, label_cut pos tail le,
    drop_cut tail (by omega) (label_quotes_le start), drop_cut tail (by omega), behindLabel]
  exact Stops.le (.run (p := continuesName) rfl) _

theorem heredoc_start {text start : List Char} (rest : text.drop (run spaceOrTab text) = start) :
    heredoc text =
      let opening := run spaceOrTab text + labelQuotes start + (labelOf start).length +
        min (labelQuotes start) (behindLabel start).length
      let fault := .error (.unterminatedHeredoc (String.ofList (labelOf start)))
      if labelOf start = [] then (fault, opening)
      else
        match heredocLength (labelOf start) ((behindLabel start).drop (labelQuotes start)) with
        | some n => (.string, opening + n)
        | none => (fault, text.length) := by
  subst rest
  rfl

structure HeredocEnds (start : List Char) (n : Nat) : Prop where
  named : labelOf start ≠ []
  found : heredocLength (labelOf start) ((behindLabel start).drop (labelQuotes start)) = some n

theorem heredoc_ends {text start : List Char} (rest : text.drop (run spaceOrTab text) = start)
    (sound : (heredoc text).1.isError = false) : ∃ n, HeredocEnds start n := by
  rw [heredoc_start rest] at sound
  dsimp only at sound
  split at sound
  · cases sound
  rename_i named
  split at sound
  · rename_i n found
    exact ⟨n, named, found⟩
  · cases sound

namespace HeredocEnds

variable {start : List Char} {n : Nat}

theorem settled (ends : HeredocEnds start n) :
    Settled (heredocLength (labelOf start))
      ((behindLabel start).drop (labelQuotes start)) n :=
  heredoc_length_settled (label_solid start) ends.found

theorem quotes_lt (ends : HeredocEnds start n) :
    labelQuotes start < (behindLabel start).length := by
  by_contra short
  have found := ends.found
  rw [List.drop_of_length_le (Nat.le_of_not_lt short)] at found
  cases found

theorem bound (ends : HeredocEnds start n) : openingLength start + n ≤ start.length := by
  have body := ends.quotes_lt
  have inside := ends.settled.bound
  simp only [behindLabel, List.length_drop] at body inside
  unfold openingLength
  omega

theorem heredoc_eq (ends : HeredocEnds start n) {text : List Char}
    (rest : text.drop (run spaceOrTab text) = start) :
    heredoc text = (.string, run spaceOrTab text + (openingLength start + n)) := by
  have body := Nat.min_eq_left (Nat.le_of_lt ends.quotes_lt)
  simp only [heredoc_start rest, if_neg ends.named, ends.found, body, openingLength,
    Nat.add_assoc]

/-- A heredoc that is cut off where it ends still ends there. -/
theorem cut (ends : HeredocEnds start n) (tail : List Char) :
    openingLength (cut (openingLength start + n) start tail) = openingLength start ∧
      HeredocEnds (cut (openingLength start + n) start tail) n := by
  obtain ⟨m, whole⟩ : ∃ m, openingLength start + n = m := ⟨_, rfl⟩
  have parts : labelQuotes start + (labelOf start).length + labelQuotes start + n = m := whole
  have named := List.length_pos_iff.mpr ends.named
  have body := ends.quotes_lt
  have pos : 0 < m := by omega
  have inside : labelQuotes start + (labelOf start).length ≤ m := by omega
  have quotes := label_quotes_cut pos start tail
  have label := label_cut pos tail inside
  have behind := behind_label_cut pos tail inside
  have left : m - labelQuotes start - (labelOf start).length - labelQuotes start = n := by omega
  rw [whole]
  refine ⟨?_, ?_, ?_⟩
  · rw [openingLength, quotes, label, openingLength]
  · rw [label]
    exact ends.named
  · rw [label, quotes, behind, drop_cut tail (by omega) (Nat.le_of_lt body), left,
      ends.settled.same tail, ends.found]

end HeredocEnds

theorem heredoc_settled {text : List Char} (sound : (heredoc text).1.isError = false) :
    Settled heredoc text (heredoc text).2 := by
  have blanks : Stops (run spaceOrTab) := .run rfl
  obtain ⟨n, ends⟩ := heredoc_ends rfl sound
  have inside := ends.bound
  have front := blanks.le text
  rw [List.length_drop] at inside
  have whole := ends.heredoc_eq rfl
  rw [whole]
  constructor
  · dsimp only
    omega
  · intro tail
    obtain ⟨opening, still⟩ := ends.cut tail
    have same : heredoc (cut _ text tail) = _ := still.heredoc_eq (blanks.behind ..)
    rw [same, whole, opening, blanks.front]

end Lexeme

end PhpAnalyser
