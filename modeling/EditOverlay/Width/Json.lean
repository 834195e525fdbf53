import EditOverlay.Text.Numeral
import EditOverlay.Width

/-! # Element widths in JSON

A width is written as a string with its symbol. It is read from such a string, or from an object
whose only member has the symbol as its name and the value `null`. JSON's four blanks may stand
between tokens, and nothing but blanks behind the value. -/

namespace EditOverlay.Width

/-- The JSON text of a width. -/
def toJson (w : Width) : String := "\"" ++ w.name ++ "\""

namespace Json

/-- The text behind the blanks at its start. -/
def skipBlanks (cs : List Char) : List Char :=
  cs.dropWhile fun c => c = ' ' || c = '\t' || c = '\n' || c = '\r'

/-- The character behind a backslash, if it stands for one character. -/
def simpleEscape? : Char → Option Char
  | '"' => some '"'
  | '\\' => some '\\'
  | '/' => some '/'
  | 'b' => some '\x08'
  | 'f' => some '\x0c'
  | 'n' => some '\n'
  | 'r' => some '\r'
  | 't' => some '\t'
  | _ => none

/-- The character with the code given by four hexadecimal digits. Halves of a surrogate pair are
refused: no character of a symbol is written with them. -/
def codeEscape? (a b c d : Char) : Option Char := do
  let digits ← [a, b, c, d].mapM (Numeral.digit? 16)
  let code := digits.foldl (fun n digit => 16 * n + digit) 0
  if 0xd800 ≤ code ∧ code < 0xe000 then none else some (Char.ofNat code)

/-- The characters of a string up to its closing quote, and the text behind it. -/
def stringTail? : List Char → Option (List Char × List Char)
  | [] => none
  | '"' :: rest => some ([], rest)
  | '\\' :: 'u' :: a :: b :: c :: d :: rest => do
    let x ← codeEscape? a b c d
    let (chars, rest) ← stringTail? rest
    return (x :: chars, rest)
  | '\\' :: c :: rest => do
    let x ← simpleEscape? c
    let (chars, rest) ← stringTail? rest
    return (x :: chars, rest)
  | c :: rest =>
    if c.toNat < 0x20 then none
    else do
      let (chars, rest) ← stringTail? rest
      return (c :: chars, rest)

/-- The width whose symbol stands as a string at the start of the text, and the text behind it. -/
def symbol? (cs : List Char) : Option (Width × List Char) :=
  match skipBlanks cs with
  | '"' :: rest => do
    let (chars, rest) ← stringTail? rest
    return (← ofName? (String.ofList chars), rest)
  | _ => none

/-- The text behind one character, blanks before it left out. -/
def after? (c : Char) (cs : List Char) : Option (List Char) :=
  match skipBlanks cs with
  | [] => none
  | d :: rest => if d = c then some rest else none

/-- The text behind `null`, blanks before it left out. -/
def afterNull? (cs : List Char) : Option (List Char) :=
  match skipBlanks cs with
  | 'n' :: 'u' :: 'l' :: 'l' :: rest => some rest
  | _ => none

/-- The width at the start of the text, in either form, and the text behind it. -/
def value? (cs : List Char) : Option (Width × List Char) :=
  match after? '\x7b' cs with
  | none => symbol? cs
  | some rest => do
    let (w, rest) ← symbol? rest
    let rest ← after? ':' rest
    let rest ← afterNull? rest
    return (w, ← after? '\x7d' rest)

end Json

/-- Reads a width from a JSON text. -/
def ofJson (text : String) : Except EditError Width :=
  match Json.value? text.toList with
  | some (w, rest) => if (Json.skipBlanks rest).isEmpty then .ok w else .error .json
  | none => .error .json

end EditOverlay.Width
