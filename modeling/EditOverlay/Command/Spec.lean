import EditOverlay.Command.Failure
import EditOverlay.Text.Blank
import EditOverlay.Text.Cut

/-! # Positions, edits and windows as texts

An edit is written `POS=V1,V2,…` and a window `POS:LEN`. Positions are decimal, or hexadecimal
behind `0x` or `0X`; values are hexadecimal, with or without `0x`. Blanks around a number count for
nothing, and neither do values of which only blanks are left.

* `splitRadix`: what stands before the digits of a position.
* `readPosition`, `readEdit`, `readWindow`: the readers; the first thing wrong from the left is the
  defect that they give. -/

namespace EditOverlay.Command

/-- What is wrong with a text. -/
inductive SpecDefect where
  /-- A position that is no numeral, without the blanks around it. -/
  | position (text : List Char) (defect : Numeral.Defect)
  /-- A value that is no numeral, without blanks and `0x`. -/
  | value (text : List Char) (defect : Numeral.Defect)
  /-- An edit without `=`. -/
  | noEquals (spec : List Char)
  /-- An edit without values. -/
  | noValues (spec : List Char)
  /-- A window without `:`. -/
  | noColon (spec : List Char)
  deriving DecidableEq, Repr

/-- The report on a defect. -/
def SpecDefect.failure : SpecDefect → Failure
  | position text defect => ⟨"无效的位置: " ++ String.ofList text, [defect.message]⟩
  | value text defect => ⟨"无效的十六进制值: " ++ String.ofList text, [defect.message]⟩
  | noEquals spec => .plain ("修改格式应为 POS=VALUES: " ++ String.ofList spec)
  | noValues spec => .plain ("修改没有给出任何值: " ++ String.ofList spec)
  | noColon spec => .plain ("视图格式应为 POS:LEN: " ++ String.ofList spec)

/-- The radix of a position, and its text behind the mark of the radix. -/
def splitRadix : List Char → Nat × List Char
  | '0' :: 'x' :: cs => (16, cs)
  | '0' :: 'X' :: cs => (16, cs)
  | cs => (10, cs)

/-- Reads a position. -/
def readPosition (text : List Char) : Except SpecDefect Nat :=
  let trimmed := Text.trim text
  let (radix, digits) := splitRadix trimmed
  (Numeral.read radix digits).mapError (.position trimmed)

/-- A value without the mark of its radix. -/
def dropMark : List Char → List Char
  | '0' :: 'x' :: cs => cs
  | cs => cs

/-- Reads a value without blanks around it. -/
def readValue (text : List Char) : Except SpecDefect Nat :=
  let digits := dropMark text
  (Numeral.read 16 digits).mapError (.value digits)

/-- The texts between the commas, without blanks around them; a text of blanks is left out. -/
def items (text : List Char) : List (List Char) :=
  ((text.splitOn ',').map Text.trim).filter (!·.isEmpty)

/-- Reads a list of values, of which there may be none. -/
def readValues (text : List Char) : Except SpecDefect (List Nat) := (items text).mapM readValue

/-- Reads an edit. -/
def readEdit (spec : List Char) : Except SpecDefect (Nat × List Nat) :=
  match Text.cut? '=' spec with
  | none => .error (.noEquals spec)
  | some (before, behind) => do
    let pos ← readPosition before
    let values ← readValues behind
    if values.isEmpty then throw (.noValues spec)
    return (pos, values)

/-- Reads a window: its position and its length. -/
def readWindow (spec : List Char) : Except SpecDefect (Nat × Nat) :=
  match Text.cut? ':' spec with
  | none => .error (.noColon spec)
  | some (before, behind) => do
    let pos ← readPosition before
    let length ← readPosition behind
    return (pos, length)

end EditOverlay.Command
