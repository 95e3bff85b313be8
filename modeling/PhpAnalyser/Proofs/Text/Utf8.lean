import Mathlib.Data.List.Basic
import PhpAnalyser.Proofs.Lexeme.Positions
import PhpAnalyser.Text.Utf8
/-!
Decoding against encoding. A byte string that encodes a text is decoded to it; of any other, the
longest start that encodes a text is followed by the fault, at the place to which reading that start
leads.
-/
namespace PhpAnalyser

def utf8Bytes (text : String) : List UInt8 := text.toUTF8.data.toList

def encodeChars (chars : List Char) : List UInt8 := chars.flatMap String.utf8EncodeChar

theorem utf8_bytes_of_list (chars : List Char) :
    utf8Bytes (String.ofList chars) = encodeChars chars := by
  simp [utf8Bytes, encodeChars, List.utf8Encode]

theorem encode_chars_prefix {first second : List Char} (leads : first <+: second) :
    (encodeChars first).length ≤ (encodeChars second).length := by
  obtain ⟨rest, rfl⟩ := leads
  simp [encodeChars]

theorem utf8_bytes_eq (text : String) : utf8Bytes text = encodeChars text.toList := by
  rw [← utf8_bytes_of_list, String.ofList_toList]

theorem length_utf8_bytes (text : String) : (utf8Bytes text).length = text.utf8ByteSize := by
  rw [utf8Bytes, Array.length_toList]
  rfl

def Owed.Paid : Owed → List UInt8 → Prop
  | owed, [] => owed.rest = 0
  | owed, b :: tail =>
    0 < owed.rest ∧ owed.low ≤ b.toNat ∧ b.toNat ≤ owed.high ∧
      Paid ⟨owed.rest - 1, 0x80, 0xBF⟩ tail

/-- The value bits of further bytes behind those of `value`. -/
def gatherBits (value : Nat) (tail : List UInt8) : Nat :=
  tail.foldl (fun value b => value * 64 + b.toNat % 64) value

theorem tail_of_paid {owed : Owed} {tail : List UInt8} (paid : owed.Paid tail) (value fits : Nat)
    (behind : List UInt8) :
    tailOf value fits owed (tail ++ behind) = .ok (gatherBits value tail, behind) := by
  induction tail generalizing owed value fits with
  | nil =>
    obtain ⟨rest, low, high⟩ := owed
    obtain rfl : rest = 0 := paid
    rw [List.nil_append, tailOf]
    rfl
  | cons b tail ih =>
    obtain ⟨rest, low, high⟩ := owed
    obtain ⟨owes, least, most, paid⟩ := paid
    obtain ⟨rest, rfl⟩ := Nat.exists_eq_add_one_of_ne_zero (Nat.ne_of_gt owes)
    rw [List.cons_append, tailOf, if_pos ⟨least, most⟩]
    exact ih paid _ _

theorem paid_of_tail {owed : Owed} {value fits v : Nat} {bytes behind : List UInt8}
    (read : tailOf value fits owed bytes = .ok (v, behind)) :
    ∃ tail, owed.Paid tail ∧ bytes = tail ++ behind ∧ v = gatherBits value tail := by
  obtain ⟨rest, low, high⟩ := owed
  induction rest generalizing low high bytes value fits with
  | zero =>
    rw [tailOf] at read
    cases read
    exact ⟨[], rfl, rfl, rfl⟩
  | succ rest ih =>
    cases bytes with
    | nil =>
      rw [tailOf] at read
      cases read
    | cons b bytes =>
      rw [tailOf] at read
      split at read
      next fit =>
        obtain ⟨tail, paid, rfl, rfl⟩ := ih _ _ read
        exact ⟨b :: tail, ⟨Nat.succ_pos rest, fit.1, fit.2, paid⟩, rfl, rfl⟩
      next => cases read

/-- What fits in front of a fault is there. -/
theorem tail_of_error {owed : Owed} {value fits n : Nat} {bytes : List UInt8}
    (read : tailOf value fits owed bytes = .error n) : n ≤ fits + bytes.length := by
  obtain ⟨rest, low, high⟩ := owed
  induction rest generalizing low high bytes value fits with
  | zero =>
    rw [tailOf] at read
    cases read
  | succ rest ih =>
    cases bytes with
    | nil =>
      rw [tailOf] at read
      cases read
      exact Nat.le_add_right ..
    | cons b bytes =>
      rw [tailOf] at read
      split at read
      next =>
        have := ih _ _ read
        rw [List.length_cons]
        omega
      next =>
        cases read
        exact Nat.le_add_right ..

structure LongForm (b : UInt8) (tail : List UInt8) (owed : Owed) (value : Nat) : Prop where
  high : 0x80 ≤ b.toNat
  owes : Owed.ofLead b.toNat = some owed
  paid : owed.Paid tail
  value_eq : gatherBits (leadBits owed.rest b.toNat) tail = value

theorem of_lead_two {n : Nat} (least : 0xC2 ≤ n) (most : n ≤ 0xDF) :
    Owed.ofLead n = some ⟨1, 0x80, 0xBF⟩ := by
  rw [Owed.ofLead, if_pos ⟨least, most⟩]

theorem of_lead_three {n : Nat} (least : 0xE0 ≤ n) (most : n ≤ 0xEF) :
    Owed.ofLead n =
      some ⟨2, if n = 0xE0 then 0xA0 else 0x80, if n = 0xED then 0x9F else 0xBF⟩ := by
  simp only [Owed.ofLead]
  grind

theorem of_lead_four {n : Nat} (least : 0xF0 ≤ n) (most : n ≤ 0xF4) :
    Owed.ofLead n =
      some ⟨3, if n = 0xF0 then 0x90 else 0x80, if n = 0xF4 then 0x8F else 0xBF⟩ := by
  simp only [Owed.ofLead]
  grind

theorem lead_cases {n : Nat} {owed : Owed} (owes : Owed.ofLead n = some owed) :
    (0xC2 ≤ n ∧ n ≤ 0xDF) ∨ (0xE0 ≤ n ∧ n ≤ 0xEF) ∨ (0xF0 ≤ n ∧ n ≤ 0xF4) := by
  simp only [Owed.ofLead] at owes
  grind

theorem long_form_of_encode (c : Char) (high : 0x80 ≤ c.toNat) :
    ∃ b tail owed, String.utf8EncodeChar c = b :: tail ∧ LongForm b tail owed c.toNat := by
  have valid := c.valid
  simp only [UInt32.isValidChar, Nat.isValidChar, Char.toNat_val] at valid
  unfold String.utf8EncodeChar
  simp only [Char.toNat_val]
  rw [if_neg (by omega)]
  split
  case isTrue two =>
    refine ⟨_, _, _, rfl, by simp; omega, of_lead_two (by simp; omega) (by simp; omega), ?_, ?_⟩
    · simp [Owed.Paid]; omega
    · simp [gatherBits, leadBits]; omega
  split
  case isTrue three =>
    refine ⟨_, _, _, rfl, by simp; omega, of_lead_three (by simp; omega) (by simp; omega), ?_, ?_⟩
    · simp [Owed.Paid]; split_ifs <;> omega
    · simp [gatherBits, leadBits]; omega
  case isFalse four =>
    refine ⟨_, _, _, rfl, by simp; omega, of_lead_four (by simp; omega) (by simp; omega), ?_, ?_⟩
    · simp [Owed.Paid]; split_ifs <;> omega
    · simp [gatherBits, leadBits]; omega

theorem paid_length {owed : Owed} {tail : List UInt8} (paid : owed.Paid tail) :
    tail.length = owed.rest := by
  induction tail generalizing owed with
  | nil => exact Eq.symm paid
  | cons b tail ih =>
    obtain ⟨owes, -, -, paid⟩ := paid
    have length := ih paid
    simp only at length
    rw [List.length_cons]
    omega

theorem byte_of_nat {n : Nat} {b : UInt8} (same : n % 256 = b.toNat) : UInt8.ofNat n = b :=
  UInt8.toNat_inj.mp (by simpa using same)

theorem code_of_valid {n : Nat} (valid : n.isValidChar) : (Char.ofNat n).toNat = n := by
  rw [Char.ofNat, dif_pos valid]
  rfl

theorem encode_two {b x : UInt8} (least : 0xC2 ≤ b.toNat) (most : b.toNat ≤ 0xDF)
    (continued : 0x80 ≤ x.toNat ∧ x.toNat ≤ 0xBF) :
    String.utf8EncodeChar (Char.ofNat (b.toNat % 32 * 64 + x.toNat % 64)) = [b, x] := by
  rw [String.utf8EncodeChar, Char.toNat_val, code_of_valid (.inl (by omega)), if_neg (by omega),
    if_pos (by omega), byte_of_nat (b := b) (by omega), byte_of_nat (b := x) (by omega)]

/-- Neither a longer form than needed nor a surrogate. -/
theorem encode_three {b x y : UInt8} (least : 0xE0 ≤ b.toNat) (most : b.toNat ≤ 0xEF)
    (proper : (b.toNat = 0xE0 → 0xA0 ≤ x.toNat) ∧ (b.toNat = 0xED → x.toNat ≤ 0x9F))
    (continued : 0x80 ≤ x.toNat ∧ x.toNat ≤ 0xBF ∧ 0x80 ≤ y.toNat ∧ y.toNat ≤ 0xBF) :
    String.utf8EncodeChar
      (Char.ofNat ((b.toNat % 16 * 64 + x.toNat % 64) * 64 + y.toNat % 64)) = [b, x, y] := by
  rw [String.utf8EncodeChar, Char.toNat_val, code_of_valid (by unfold Nat.isValidChar; omega),
    if_neg (by omega), if_neg (by omega), if_pos (by omega), byte_of_nat (b := b) (by omega),
    byte_of_nat (b := x) (by omega), byte_of_nat (b := y) (by omega)]

/-- Neither a longer form than needed nor a value beyond the last character. -/
theorem encode_four {b x y z : UInt8} (least : 0xF0 ≤ b.toNat) (most : b.toNat ≤ 0xF4)
    (proper : (b.toNat = 0xF0 → 0x90 ≤ x.toNat) ∧ (b.toNat = 0xF4 → x.toNat ≤ 0x8F))
    (continued : 0x80 ≤ x.toNat ∧ x.toNat ≤ 0xBF ∧ 0x80 ≤ y.toNat ∧ y.toNat ≤ 0xBF ∧
      0x80 ≤ z.toNat ∧ z.toNat ≤ 0xBF) :
    String.utf8EncodeChar (Char.ofNat
      (((b.toNat % 8 * 64 + x.toNat % 64) * 64 + y.toNat % 64) * 64 + z.toNat % 64)) =
      [b, x, y, z] := by
  rw [String.utf8EncodeChar, Char.toNat_val, code_of_valid (by unfold Nat.isValidChar; omega),
    if_neg (by omega), if_neg (by omega), if_neg (by omega), byte_of_nat (b := b) (by omega),
    byte_of_nat (b := x) (by omega), byte_of_nat (b := y) (by omega),
    byte_of_nat (b := z) (by omega)]

theorem encode_of_long_form {b : UInt8} {tail : List UInt8} {owed : Owed} {value : Nat}
    (form : LongForm b tail owed value) :
    String.utf8EncodeChar (Char.ofNat value) = b :: tail := by
  obtain ⟨-, owes, paid, rfl⟩ := form
  have length := paid_length paid
  rcases lead_cases owes with ⟨least, most⟩ | ⟨least, most⟩ | ⟨least, most⟩
  · obtain rfl := Option.some.inj (owes.symm.trans (of_lead_two least most))
    obtain ⟨x, rfl⟩ := List.length_eq_one_iff.mp length
    simp only [Owed.Paid] at paid
    exact encode_two least most ⟨paid.2.1, paid.2.2.1⟩
  · obtain rfl := Option.some.inj (owes.symm.trans (of_lead_three least most))
    obtain ⟨x, y, rfl⟩ := List.length_eq_two.mp length
    simp only [Owed.Paid] at paid
    exact encode_three least most (by grind) (by grind)
  · obtain rfl := Option.some.inj (owes.symm.trans (of_lead_four least most))
    obtain ⟨x, y, z, rfl⟩ := List.length_eq_three.mp length
    simp only [Owed.Paid] at paid
    exact encode_four least most (by grind) (by grind)

/-- A character is read from its bytes. -/
theorem first_char_of_encode {c : Char} {b : UInt8} {bytes rest : List UInt8}
    (encoded : b :: bytes = String.utf8EncodeChar c ++ rest) : firstChar b bytes = .ok (c, rest) := by
  by_cases ascii : c.toNat < 0x80
  · have single : String.utf8EncodeChar c = [UInt8.ofNat c.toNat] := by
      rw [String.utf8EncodeChar, Char.toNat_val, if_pos (by omega)]
    rw [single] at encoded
    obtain ⟨rfl, rfl⟩ := List.cons.inj encoded
    have code : (UInt8.ofNat c.toNat).toNat = c.toNat := by
      rw [UInt8.toNat_ofNat']
      omega
    rw [firstChar, code, if_pos ascii, Char.ofNat_toNat]
  · obtain ⟨lead, tail, owed, same, form⟩ := long_form_of_encode c (by omega)
    rw [same] at encoded
    obtain ⟨rfl, rfl⟩ := List.cons.inj encoded
    have high := form.high
    simp only [firstChar]
    rw [if_neg (by omega), form.owes, List.append_eq]
    simp only [tail_of_paid form.paid, form.value_eq, Char.ofNat_toNat]

/-- What is read as a character are its bytes. -/
theorem encode_of_first_char {c : Char} {b : UInt8} {bytes rest : List UInt8}
    (read : firstChar b bytes = .ok (c, rest)) : b :: bytes = String.utf8EncodeChar c ++ rest := by
  unfold firstChar at read
  split at read
  next ascii =>
    obtain ⟨rfl, rfl⟩ := Prod.mk.inj (Except.ok.inj read)
    rw [String.utf8EncodeChar, Char.toNat_val, code_of_valid (.inl (by omega)),
      if_pos (by omega), byte_of_nat (b := b) (by omega)]
    rfl
  next high =>
    split at read
    next => cases read
    next owed owes =>
      split at read
      next value behind gathered =>
        obtain ⟨rfl, rfl⟩ := Prod.mk.inj (Except.ok.inj read)
        obtain ⟨tail, paid, rfl, rfl⟩ := paid_of_tail gathered
        rw [encode_of_long_form ⟨by omega, owes, paid, rfl⟩]
        rfl
      next => cases read

/-- A fault takes at least one byte, and no more than there are. -/
theorem first_char_fault {b : UInt8} {bytes : List UInt8} {n : Nat}
    (read : firstChar b bytes = .error n) : 0 < n ∧ n ≤ (b :: bytes).length := by
  unfold firstChar at read
  split at read
  next => cases read
  next =>
    split at read
    next =>
      cases read
      simp
    next =>
      split at read
      next => cases read
      next fits short =>
        cases read
        have := tail_of_error short
        rw [List.length_cons]
        omega

/-- What is decoded are the bytes in front of the fault, or all bytes where there is none. -/
theorem decode_start_leads (fuel : Nat) (bytes : List UInt8) (enough : bytes.length ≤ fuel) :
    ∃ rest, bytes = encodeChars (decodeStart fuel bytes).chars ++ rest ∧
      ((decodeStart fuel bytes).fault = none → rest = []) ∧
      ∀ n, (decodeStart fuel bytes).fault = some n → 0 < n ∧ n ≤ rest.length := by
  induction fuel generalizing bytes with
  | zero =>
    obtain rfl : bytes = [] := List.length_eq_zero_iff.mp (by omega)
    exact ⟨[], rfl, fun _ => rfl, nofun⟩
  | succ fuel ih =>
    cases bytes with
    | nil => exact ⟨[], rfl, fun _ => rfl, nofun⟩
    | cons b bytes =>
      unfold decodeStart
      split
      next n fault =>
        refine ⟨b :: bytes, rfl, nofun, ?_⟩
        rintro _ ⟨⟩
        exact first_char_fault fault
      next c rest read =>
        have encoded := encode_of_first_char read
        have length := congrArg List.length encoded
        have size := c.utf8Size_pos
        simp only [List.length_cons, List.length_append, String.length_utf8EncodeChar] at length enough
        obtain ⟨behind, same, finished, faulty⟩ := ih rest (by omega)
        refine ⟨behind, ?_, finished, faulty⟩
        rw [encoded, encodeChars, List.flatMap_cons, List.append_assoc]
        exact congrArg _ same

/-- No text that the bytes start with goes on behind what is decoded. -/
theorem decode_start_longest (fuel : Nat) (bytes : List UInt8) (enough : bytes.length ≤ fuel)
    (chars : List Char) (leads : encodeChars chars <+: bytes) :
    chars <+: (decodeStart fuel bytes).chars := by
  induction chars generalizing fuel bytes with
  | nil => exact List.nil_prefix
  | cons c chars ih =>
    obtain ⟨rest, same⟩ := leads
    rw [encodeChars, List.flatMap_cons, List.append_assoc] at same
    have length := congrArg List.length same
    have size := c.utf8Size_pos
    simp only [List.length_append, String.length_utf8EncodeChar] at length
    cases bytes with
    | nil => simp at length; omega
    | cons b bytes =>
      cases fuel with
      | zero => simp at enough
      | succ fuel =>
        rw [decodeStart, first_char_of_encode same.symm]
        refine List.prefix_cons_inj c |>.mpr (ih fuel _ ?_ (List.prefix_append ..))
        simp only [List.length_append, List.length_cons] at length enough ⊢
        omega

/-- `start` is the longest text whose bytes stand at the front of `bytes`. -/
structure LongestStart (bytes : List UInt8) (start : String) : Prop where
  leads : utf8Bytes start <+: bytes
  longest : ∀ text, utf8Bytes text <+: bytes → (utf8Bytes text).length ≤ (utf8Bytes start).length

/-- `e` names the bytes behind `start` as no text, at the place to which reading `start` leads. -/
structure LexError.Marks (e : LexError) (bytes : List UInt8) (start : String) : Prop where
  longest : LongestStart bytes start
  fault_eq : e.fault = .invalidUtf8
  start_eq : e.span.start = (utf8Bytes start).length
  nonempty : e.span.start < e.span.stop
  inside : e.span.stop ≤ bytes.length
  first_eq : e.span.first = (Cursor.origin.past start.toList).next
  last_eq : e.span.last = (Cursor.origin.past start.toList).next

/-- A byte string is decoded to the text that it encodes; where there is none, what stands behind its
longest start that is a text is reported, at the line and column of a reader behind that start. -/
theorem decode_source_settles (bytes : List UInt8) :
    (∃ text, utf8Bytes text = bytes ∧ decodeSource bytes = .ok text) ∨
      (∀ text, utf8Bytes text ≠ bytes) ∧
        ∃ start e, decodeSource bytes = .error e ∧ e.Marks bytes start := by
  obtain ⟨rest, same, finished, faulty⟩ := decode_start_leads bytes.length bytes (Nat.le_refl _)
  have goesOn := decode_start_longest bytes.length bytes (Nat.le_refl _)
  unfold decodeSource
  generalize decodeStart bytes.length bytes = decoded at *
  obtain ⟨chars, fault⟩ := decoded
  have longest (text : String) (leads : utf8Bytes text <+: bytes) :
      (utf8Bytes text).length ≤ (encodeChars chars).length := by
    rw [utf8_bytes_eq] at leads ⊢
    exact encode_chars_prefix (goesOn text.toList leads)
  cases fault with
  | none =>
    obtain rfl := finished rfl
    rw [List.append_nil] at same
    exact .inl ⟨String.ofList chars, by rw [utf8_bytes_of_list, same], rfl⟩
  | some n =>
    obtain ⟨positive, inside⟩ := faulty n rfl
    have length := congrArg List.length same
    simp only [List.length_append] at length
    refine .inr ⟨fun text whole => ?_, String.ofList chars, _, rfl, ?_⟩
    · have := longest text (whole ▸ List.prefix_rfl)
      rw [whole] at this
      omega
    · have start : (encodeChars chars).length = (String.ofList chars).utf8ByteSize := by
        rw [← utf8_bytes_of_list, length_utf8_bytes]
      constructor
      · constructor
        · exact ⟨rest, by rw [utf8_bytes_of_list, same]⟩
        · rwa [utf8_bytes_of_list]
      · rfl
      · rw [length_utf8_bytes]
      · simp only
        omega
      · simp only
        omega
      · rw [String.toList_ofList, Cursor.next_past]
      · rw [String.toList_ofList, Cursor.next_past]

example : decodeSource [0x61, 0x0A, 0xC3, 0xA9, 0xED, 0xA0, 0x80] =
    .error ⟨.invalidUtf8, ⟨4, 5, ⟨2, 2⟩, ⟨2, 2⟩⟩⟩ := by
  cbv

end PhpAnalyser
