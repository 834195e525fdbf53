import EditOverlay.Command.Spec
import EditOverlay.Proofs.Except
import EditOverlay.Proofs.Text.Numeral

/-! # Positions as texts

A position is a numeral with blanks around it, hexadecimal behind a mark and decimal without one
(`PositionMark`). Exactly the texts of positions are read, and every other text is refused for what
is wrong with its numeral (`readPosition_eq_ok_iff`, `readPosition_eq_error_iff`). A position that
is written with any zeros, marks and blanks is read back (`readPosition_of_written`). -/

namespace EditOverlay.Command

open Numeral (Renders IsNumeral Fails)
open Text (Blank Trims)

/-- The mark before the digits of a position, the radix that it stands for, and the digits. -/
inductive PositionMark : List Char → Nat → List Char → Prop
  | small (cs : List Char) : PositionMark ('0' :: 'x' :: cs) 16 cs
  | capital (cs : List Char) : PositionMark ('0' :: 'X' :: cs) 16 cs
  | none {cs : List Char} (hsmall : ¬ ['0', 'x'] <+: cs) (hcapital : ¬ ['0', 'X'] <+: cs) :
    PositionMark cs 10 cs

variable {text core digits cs : List Char} {radix n : Nat}

theorem positionMark_splitRadix (cs : List Char) :
    PositionMark cs (splitRadix cs).1 (splitRadix cs).2 := by
  unfold splitRadix
  split
  · exact .small _
  · exact .capital _
  · rename_i hsmall hcapital
    refine .none ?_ ?_
    · rintro ⟨rest, rfl⟩
      exact hsmall rest rfl
    · rintro ⟨rest, rfl⟩
      exact hcapital rest rfl

theorem positionMark_iff : PositionMark cs radix digits ↔ splitRadix cs = (radix, digits) := by
  constructor
  · intro h
    cases h with
    | small => rfl
    | capital => rfl
    | none hsmall hcapital =>
      unfold splitRadix
      split
      · exact absurd ⟨_, rfl⟩ hsmall
      · exact absurd ⟨_, rfl⟩ hcapital
      · rfl
  · intro h
    have hsplit := positionMark_splitRadix cs
    rwa [h] at hsplit

theorem PositionMark.radix_le (h : PositionMark cs radix digits) : radix ≤ 16 := by
  cases h <;> decide

theorem readPosition_eq (hcore : Trims text core) (hmark : PositionMark core radix digits) :
    readPosition text = (Numeral.read radix digits).mapError (.position core) := by
  rw [readPosition, Text.trim_eq_iff.mpr hcore, positionMark_iff.mp hmark]

theorem exists_positionMark (text : List Char) :
    ∃ core radix digits, Trims text core ∧ PositionMark core radix digits :=
  ⟨_, _, _, Text.trims_trim text, positionMark_splitRadix _⟩

theorem readPosition_eq_ok_iff : readPosition text = .ok n ↔
    ∃ core radix digits, Trims text core ∧ PositionMark core radix digits ∧
      IsNumeral radix digits n := by
  constructor
  · intro h
    obtain ⟨core, radix, digits, hcore, hmark⟩ := exists_positionMark text
    rw [readPosition_eq hcore hmark, mapError_eq_ok, Numeral.read_eq_ok_iff hmark.radix_le] at h
    exact ⟨core, radix, digits, hcore, hmark, h⟩
  · rintro ⟨core, radix, digits, hcore, hmark, h⟩
    rwa [readPosition_eq hcore hmark, mapError_eq_ok, Numeral.read_eq_ok_iff hmark.radix_le]

theorem readPosition_eq_error_iff {e : SpecDefect} : readPosition text = .error e ↔
    ∃ core radix digits d, Trims text core ∧ PositionMark core radix digits ∧ Fails radix digits d ∧
      e = .position core d := by
  constructor
  · intro h
    obtain ⟨core, radix, digits, hcore, hmark⟩ := exists_positionMark text
    rw [readPosition_eq hcore hmark, mapError_eq_error] at h
    obtain ⟨d, hd, rfl⟩ := h
    exact ⟨core, radix, digits, d, hcore, hmark, (Numeral.read_eq_error_iff hmark.radix_le).mp hd,
      rfl⟩
  · rintro ⟨core, radix, digits, d, hcore, hmark, hd, rfl⟩
    rw [readPosition_eq hcore hmark, mapError_eq_error]
    exact ⟨d, (Numeral.read_eq_error_iff hmark.radix_le).mpr hd, rfl⟩

/-! ### Written positions -/

/-- The text is the position as it is written: in decimal, or in hexadecimal behind a mark. -/
def PositionText (cs : List Char) (n : Nat) : Prop :=
  Renders 10 cs n ∨
    ∃ mark digits, (mark = 'x' ∨ mark = 'X') ∧ Renders 16 digits n ∧ cs = '0' :: mark :: digits

theorem PositionText.isAlphanum (h : PositionText cs n) : ∀ c ∈ cs, c.isAlphanum = true := by
  rcases h with h | ⟨mark, digits, hmark, hdigits, rfl⟩
  · exact h.isAlphanum (by decide) (by decide)
  · have hletters := hdigits.isAlphanum (by decide) (by decide)
    rcases hmark with rfl | rfl <;> simpa using hletters

theorem PositionText.exists_mark (h : PositionText cs n) :
    ∃ radix digits, 1 < radix ∧ Renders radix digits n ∧ PositionMark cs radix digits := by
  rcases h with h | ⟨mark, digits, rfl | rfl, hdigits, rfl⟩
  · have hmark : ∀ c ∈ cs, c.toLower ≠ 'x' := by
      intro c hc
      obtain ⟨d, -, hd⟩ := (h.spells (by decide)).exists_of_mem hc
      rw [hd]
      exact Nat.digitChar_ne 'x' (by decide)
    refine ⟨10, cs, by decide, h, .none ?_ ?_⟩
    · rintro ⟨rest, rfl⟩
      exact hmark 'x' (by simp) rfl
    · rintro ⟨rest, rfl⟩
      exact hmark 'X' (by simp) rfl
  · exact ⟨16, digits, by decide, hdigits, .small digits⟩
  · exact ⟨16, digits, by decide, hdigits, .capital digits⟩

theorem readPosition_of_written (hcore : Trims text core) (h : PositionText core n)
    (hn : n < 2 ^ 64) : readPosition text = .ok n := by
  obtain ⟨radix, digits, hradix, hdigits, hmark⟩ := h.exists_mark
  exact readPosition_eq_ok_iff.mpr
    ⟨core, radix, digits, hcore, hmark, hdigits.isNumeral hradix hmark.radix_le hn⟩

/-- **Exactly the texts of positions are read, and every other text is refused for its defect.**
Between the blanks at its ends a text is a position if it is a numeral below 2 ^ 64, hexadecimal
behind `0x` or `0X` and decimal without a mark. The report on any other text shows it without the
blanks, and has one cause: nothing is left behind the mark; behind a sign or none there are digits
for a number from 2 ^ 64 on; or, in all other cases, a character is out of place. So every position
is read back from its decimal text, and behind either mark from its hexadecimal text in letters of
any case, with any zeros before and any blanks around it. -/
theorem position_grammar :
    (∀ text n, readPosition text = .ok n ↔ ∃ core radix digits,
      Trims text core ∧ PositionMark core radix digits ∧ IsNumeral radix digits n) ∧
    (∀ text e, readPosition text = .error e ↔ ∃ core radix digits d,
      Trims text core ∧ PositionMark core radix digits ∧ Fails radix digits d ∧
        e = .position core d ∧ e.failure = ⟨"无效的位置: " ++ String.ofList core, [d.message]⟩) ∧
    ∀ n < 2 ^ 64, ∀ before behind, Blank before → Blank behind → ∀ zeros,
      readPosition (before ++ (List.replicate zeros '0' ++ Numeral.decimal n) ++ behind) = .ok n ∧
      ∀ mark ∈ ['x', 'X'], ∀ digits, digits.map Char.toLower = Numeral.hex n →
        readPosition (before ++ ('0' :: mark :: (List.replicate zeros '0' ++ digits)) ++ behind) =
          .ok n := by
  refine ⟨fun text n => readPosition_eq_ok_iff, fun text e => ?_, ?_⟩
  · rw [readPosition_eq_error_iff]
    constructor
    · rintro ⟨core, radix, digits, d, hcore, hmark, hd, rfl⟩
      exact ⟨core, radix, digits, d, hcore, hmark, hd, rfl, rfl⟩
    · rintro ⟨core, radix, digits, d, hcore, hmark, hd, he, -⟩
      exact ⟨core, radix, digits, d, hcore, hmark, hd, he⟩
  · intro n hn before behind hbefore hbehind zeros
    have hread : ∀ cs, PositionText cs n → readPosition (before ++ cs ++ behind) = .ok n :=
      fun cs h => readPosition_of_written (Text.trims_of_alphanum hbefore hbehind h.isAlphanum) h hn
    refine ⟨hread _ (.inl ?_), fun mark hmark digits hdigits => hread _ (.inr ?_)⟩
    · exact Numeral.renders_toDigits (by decide) (by decide) zeros n
    · exact ⟨mark, _, by simpa using hmark, ⟨zeros, digits, rfl, hdigits⟩, rfl⟩

/-- Letters of both cases behind a mark and zeros, between a blank and a no-break space. -/
theorem position_grammar_padded :
    Blank [' '] ∧ Blank ['\u00a0'] ∧ ['f', 'F'].map Char.toLower = Numeral.hex 255 ∧
      readPosition [' ', '0', 'X', '0', '0', 'f', 'F', '\u00a0'] = .ok 255 := by
  have hbefore : Blank [' '] := by decide
  have hbehind : Blank ['\u00a0'] := by decide
  have hdigits : ['f', 'F'].map Char.toLower = Numeral.hex 255 := by decide
  obtain ⟨-, hread⟩ := position_grammar.2.2 255 (by decide) _ _ hbefore hbehind 2
  exact ⟨hbefore, hbehind, hdigits, hread 'X' (by simp) _ hdigits⟩

end EditOverlay.Command
