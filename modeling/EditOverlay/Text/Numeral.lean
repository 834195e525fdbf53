/-! # Text: numerals

Numbers are written with `Nat.toDigits`, whose digits are `0` to `9` and `a` to `f`; hexadecimal
numbers also in capitals, and both filled up with zeros. A numeral is read in a radix up to sixteen:
an optional `+`, then digits of either case, with a value below `Numeral.limit`. -/

namespace EditOverlay.Numeral

/-- The first number that has more than sixty-four bits. -/
def limit : Nat := 0x10000000000000000

/-! ### Writing -/

/-- The decimal text of a number. -/
def decimal (n : Nat) : List Char := Nat.toDigits 10 n

/-- The hexadecimal text of a number in small letters. -/
def hex (n : Nat) : List Char := Nat.toDigits 16 n

/-- Digits filled up with zeros to a width. More digits are kept. -/
def pad (width : Nat) (digits : List Char) : List Char :=
  List.replicate (width - digits.length) '0' ++ digits

/-- The hexadecimal text of a number in capitals with at least `width` digits. -/
def hexPadded (width n : Nat) : List Char := pad width ((hex n).map Char.toUpper)

/-! ### Reading -/

/-- What keeps a text from being a numeral. -/
inductive Defect where
  /-- There is no character at all. -/
  | empty
  /-- A character is no digit of the radix, or no digit follows the sign. -/
  | invalidDigit
  /-- The digits read so far make a number from `limit` on. -/
  | tooLarge
  deriving DecidableEq, Repr

/-- The wording of a defect. -/
def Defect.message : Defect → String
  | .empty => "cannot parse integer from empty string"
  | .invalidDigit => "invalid digit found in string"
  | .tooLarge => "number too large to fit in target type"

/-- The value of a hexadecimal digit of either case. -/
def digitValue? (c : Char) : Option Nat :=
  if '0' ≤ c ∧ c ≤ '9' then some (c.toNat - '0'.toNat)
  else if 'a' ≤ c ∧ c ≤ 'f' then some (c.toNat - 'a'.toNat + 10)
  else if 'A' ≤ c ∧ c ≤ 'F' then some (c.toNat - 'A'.toNat + 10)
  else none

/-- The value of a digit of the radix. -/
def digit? (radix : Nat) (c : Char) : Option Nat := (digitValue? c).filter (· < radix)

/-- Reads digits after a first part with the value `value`. The first character that is no digit, or
that takes the value to `limit`, decides. -/
def readDigits (radix value : Nat) : List Char → Except Defect Nat
  | [] => .ok value
  | c :: cs =>
    match digit? radix c with
    | none => .error .invalidDigit
    | some d =>
      if radix * value + d < limit then readDigits radix (radix * value + d) cs
      else .error .tooLarge

/-- Reads a numeral. -/
def read (radix : Nat) : List Char → Except Defect Nat
  | [] => .error .empty
  | ['+'] => .error .invalidDigit
  | '+' :: cs => readDigits radix 0 cs
  | cs => readDigits radix 0 cs

end EditOverlay.Numeral
