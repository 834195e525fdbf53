import EditOverlay.Text.Hidden
import EditOverlay.Text.Numeral

/-! # Text: quoted texts

File names are shown between double quotes. The double quote and the backslash have a backslash
before them, and a character without a shape of its own is written by its code point. So a quoted
name ends at the first double quote that has no backslash before it. -/

namespace EditOverlay.Text

/-- The text of a character inside quotes. -/
def escape (c : Char) : List Char :=
  match c with
  | '\x00' => ['\\', '0']
  | '\t' => ['\\', 't']
  | '\n' => ['\\', 'n']
  | '\r' => ['\\', 'r']
  | '"' => ['\\', '"']
  | '\\' => ['\\', '\\']
  | c => if isHidden c then ['\\', 'u', '\x7b'] ++ Numeral.hex c.toNat ++ ['\x7d'] else [c]

/-- A text between double quotes. -/
def quote (s : String) : String := String.ofList ('"' :: s.toList.flatMap escape ++ ['"'])

end EditOverlay.Text
