import PhpAnalyser.Proofs.Grammar.Outcome
import PhpAnalyser.Proofs.Layout.Unit
import PhpAnalyser.Proofs.Replay.Unit
/-!
Tokens as the lexer makes them, in any order. They are read to an end like those of a text.
-/
namespace PhpAnalyser

def Scanned (ts : List Token) : Prop := ∀ t ∈ ts, t.kind ≠ .eof ∧ ∃ source, t ∈ scan source

def timed (ts : List Token) : List Token :=
  ts.mapIdx fun i t => { t with span := ⟨2 * i, 2 * i + 1, .start, .start⟩ }

section

variable {ts : List Token}

theorem Scanned.unmarked (scanned : Scanned ts) : Unmarked ts := fun t member => (scanned t member).1

theorem scanned_open {source : String} : Scanned (scanOpen source) := by
  intro t member
  exact ⟨of_decide_eq_true (List.all_eq_true.mp List.all_takeWhile t member), source,
    (List.takeWhile_prefix _).subset member⟩

theorem timed_found {i : Nat} {u : Token} (found : (timed ts)[i]? = some u) :
    ∃ t, ts[i]? = some t ∧ u = { t with span := ⟨2 * i, 2 * i + 1, .start, .start⟩ } := by
  rw [timed, List.getElem?_mapIdx] at found
  obtain ⟨t, there, same⟩ := Option.map_eq_some_iff.mp found
  exact ⟨t, there, same.symm⟩

theorem timed_alike : List.Forall₂ Token.Alike ts (timed ts) := by
  refine List.forall₂_iff_get.mpr ⟨by simp [timed], fun i low low' => ?_⟩
  simp only [timed, List.get_eq_getElem, List.getElem_mapIdx]
  exact ⟨⟨rfl, rfl, fun _ => rfl⟩, fun _ => rfl⟩

/-- A token of a closed list is one of a text, or it is the mark of the end. -/
theorem Scanned.close_cases (scanned : Scanned ts) {t : Token} (member : t ∈ TokenStream.close ts) :
    (t.kind ≠ .eof ∧ ∃ source, t ∈ scan source) ∨ (t.kind = .eof ∧ t.text = "") := by
  rw [scanned.unmarked.close] at member
  rcases List.mem_append.mp member with inside | last
  · exact .inl (scanned t inside)
  · rw [List.mem_singleton.mp last]
    exact .inr ⟨rfl, rfl⟩

theorem Scanned.lexed (scanned : Scanned ts) : Lexed (timed (TokenStream.close ts)).toArray := by
  have origin {u : Token} (member : u ∈ (timed (TokenStream.close ts)).toArray) :
      ∃ i t, u = { t with span := ⟨2 * i, 2 * i + 1, .start, .start⟩ } ∧
        ((t.kind ≠ .eof ∧ ∃ source, t ∈ scan source) ∨ (t.kind = .eof ∧ t.text = "")) := by
    obtain ⟨i, found⟩ := List.getElem?_of_mem (List.mem_toArray.mp member)
    obtain ⟨t, there, rfl⟩ := timed_found found
    exact ⟨i, t, rfl, scanned.close_cases (List.mem_of_getElem? there)⟩
  constructor
  case ordered =>
    intro i j a b lt first second
    rw [List.getElem?_toArray] at first second
    obtain ⟨_, _, rfl⟩ := timed_found first
    obtain ⟨_, _, rfl⟩ := timed_found second
    dsimp only
    omega
  case last =>
    intro i u found ends
    rw [List.getElem?_toArray] at found
    obtain ⟨t, there, rfl⟩ := timed_found found
    have size : (timed (TokenStream.close ts)).toArray.size = ts.length + 1 := by
      simp [timed, scanned.unmarked.close]
    have bound := (List.getElem?_eq_some_iff.mp there).1
    rw [scanned.unmarked.close] at there bound
    rw [List.length_append, List.length_singleton] at bound
    rw [size]
    by_contra other
    have low : i < ts.length := by omega
    rw [List.getElem?_append_left low] at there
    exact scanned.unmarked t (List.mem_of_getElem? there) ends
  case start_le =>
    intro u member
    obtain ⟨i, t, rfl, -⟩ := origin member
    exact Nat.le_succ _
  case extent =>
    intro u member _
    obtain ⟨i, t, rfl, -⟩ := origin member
    exact Nat.lt_succ_self _
  case text =>
    intro u member more
    obtain ⟨i, t, rfl, ⟨_, source, inside⟩ | ⟨ends, -⟩⟩ := origin member
    · exact scan_text (t := t) inside more
    · exact absurd ends more
  case arrow =>
    intro u member word
    obtain ⟨i, t, rfl, ⟨_, source, inside⟩ | ⟨-, empty⟩⟩ := origin member
    · exact scan_arrow (t := t) inside word
    · rw [show t.text = "" from empty] at word
      exact absurd word (by decide)
  case simple =>
    intro u member identifier
    obtain ⟨i, t, rfl, ⟨_, source, inside⟩ | ⟨ends, -⟩⟩ := origin member
    · exact scan_identifier (t := t) inside identifier
    · cases ends.symm.trans identifier
  case solid =>
    intro u member word
    obtain ⟨i, t, rfl, ⟨_, source, inside⟩ | ⟨ends, -⟩⟩ := origin member
    · exact scan_solid (t := t) inside word
    · have word : Parser.isWord t.kind = true := word
      rw [ends] at word
      cases word

theorem Scanned.close_timed (scanned : Scanned ts) :
    TokenStream.close (timed (TokenStream.close ts)) = timed (TokenStream.close ts) := by
  rw [scanned.unmarked.close, TokenStream.close, if_pos]
  simp [timed, TokenStream.closing]

/-- Such tokens are read to an end. -/
theorem Scanned.total (scanned : Scanned ts) :
    Parser.compilationUnit (.initial (.ofTokens ts)) ≠ none := by
  intro stuck
  have lexed := scanned.close_timed.symm ▸ scanned.lexed
  have reads := compilation_unit_reads (sound_start lexed) rfl rfl
  have mirrors : Mirrors (.initial (.ofTokens ts)) (.initial (.ofTokens (timed (TokenStream.close ts)))) :=
    mirrors_initial (scanned.close_timed.symm ▸ timed_alike)
  have matched := Agrees.compilationUnit _ _ mirrors
  rw [stuck] at matched
  unfold Reads at reads
  generalize Parser.compilationUnit (.initial (.ofTokens (timed (TokenStream.close ts)))) = outcome at matched reads
  cases matched
  exact reads

/-- No parenthesis of a text is written like the word of an arrow function. -/
theorem Scanned.legible (scanned : Scanned ts) : Legible (TokenStream.close ts).toArray := by
  intro t member arrow
  have word : Parser.isWord t.kind = true := by
    rcases scanned.close_cases (List.mem_toArray.mp member) with ⟨_, source, inside⟩ | ⟨-, empty⟩
    · exact scan_arrow_word inside arrow
    · rw [Parser.isArrowWord, empty] at arrow
      exact absurd arrow (by decide)
  cases kind : t.kind <;> first | rfl | (rw [kind] at word; cases word)

end

end PhpAnalyser
