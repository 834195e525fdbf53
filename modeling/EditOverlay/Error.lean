import EditOverlay.Text.Numeral

/-! # Errors

The causes for which an edit, a read or a write is refused. Causes that the caller could have
avoided are contract violations (`EditError.isContractViolation`); the others come from the
store. -/

namespace EditOverlay

/-- Why an operation was refused. -/
inductive EditError where
  /-- A position behind the end of the elements. -/
  | outOfRange (pos length : Nat)
  /-- A range that ends behind the end of the elements. -/
  | rangeOverflow (pos count length : Nat)
  /-- A value with more bits than an element has. -/
  | valueTooWide (value bits : Nat)
  /-- A store whose elements have another width. -/
  | widthMismatch (expected actual : Nat)
  /-- A number of bits that no element width has. -/
  | unsupportedWidth (bits : Nat)
  /-- The store refused to write. -/
  | writeFailed (pos : Nat) (reason : String)
  /-- A file or a buffer could not be read or written. -/
  | storage (reason : String)
  /-- A text in JSON does not name what it should. -/
  | json
  deriving DecidableEq, Repr

namespace EditError

/-- The wording of an error. -/
def message : EditError → String
  | outOfRange pos length => s!"Position {pos} out of range (blob length: {length})"
  | rangeOverflow pos count length =>
    s!"Range [{pos}, {pos}+{count}) exceeds blob length {length}"
  | valueTooWide value bits =>
    "Value 0x" ++ String.ofList (Numeral.hex value) ++ s!" does not fit in a {bits}-bit element"
  | widthMismatch expected actual =>
    s!"Element width mismatch: expected {expected} bits, got {actual} bits"
  | unsupportedWidth bits => s!"Unsupported element width: {bits} bits"
  | writeFailed pos reason => s!"Write failed at position {pos}: {reason}"
  | storage reason => s!"IO error: {reason}"
  | json => "JSON error"

/-- Whether the caller broke a rule, in contrast to a fault of the store. -/
def isContractViolation : EditError → Bool
  | outOfRange .. | rangeOverflow .. | valueTooWide .. | widthMismatch .. | unsupportedWidth .. =>
    true
  | writeFailed .. | storage .. | json => false

end EditError
end EditOverlay
