import EditOverlay.Text.Numeral

/-! # Points in time

A point in time to the second, and its text in a file name, as in `2024-01-31-23-59-08`. -/

namespace EditOverlay

/-- A second of a day of the calendar. -/
structure Timestamp where
  year : Nat
  month : Nat
  day : Nat
  hour : Nat
  minute : Nat
  second : Nat
  deriving DecidableEq, Repr

/-- The numbers of a point in time with dashes between them. -/
def Timestamp.text (t : Timestamp) : String :=
  let number width n := String.ofList (Numeral.pad width (Numeral.decimal n))
  "-".intercalate (number 4 t.year ::
    [t.month, t.day, t.hour, t.minute, t.second].map (number 2))

end EditOverlay
