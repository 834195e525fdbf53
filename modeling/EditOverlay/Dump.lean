import EditOverlay.Codec
import EditOverlay.Editor

/-! # Dumps

Two texts for people. `viewLines` shows values in hexadecimal, sixteen to a line behind the position
of the first one; a changed value has a star before it and any other a blank. `runLines` lists the
runs and the undo stack, the newest entry first. -/

namespace EditOverlay.Dump

/-- The values on a line. -/
def perLine : Nat := 16

/-- The digits of a position at the least. -/
def positionDigits : Nat := 8

/-- The text of a position. -/
def position (p : Nat) : List Char := Numeral.hexPadded positionDigits p

/-- The text of a value with its mark. -/
def cell (w : Width) (changed : Bool) (value : Nat) : List Char :=
  (if changed then '*' else ' ') :: Numeral.hexPadded w.hexDigits value

/-- The text of a line with the values from `start` on. -/
def line (w : Width) (changed : Nat → Bool) (start : Nat) (values : List Nat) : List Char :=
  position start ++ ':' ::
    values.zipIdx.flatMap fun (value, i) => cell w (changed (start + i)) value

/-- The values cut into lines. -/
def rows (values : List Nat) : List (List Nat) :=
  (List.range ((values.length + perLine - 1) / perLine)).map fun i =>
    (values.drop (perLine * i)).take perLine

/-- The lines for values from `offset` on. -/
def lines (w : Width) (changed : Nat → Bool) (offset : Nat) (values : List Nat) :
    List (List Char) :=
  (rows values).zipIdx.map fun (row, i) => line w changed (offset + perLine * i) row

/-- The text of an undo entry. -/
def entryText (e : UndoEntry) : String :=
  let n := e.previous.length
  "[" ++ String.ofList (position e.position) ++ s!"] {n} 个元素"

/-- The text of a run. -/
def runText (r : Run) : String :=
  let start := String.ofList (position r.start)
  let stop := String.ofList (position r.stop)
  let n := r.length
  s!"[{start}, {stop}) {n} 个元素"

/-- Lines put together, each with a newline behind it. -/
def unlines (lines : List String) : String := String.join (lines.map (· ++ "\n"))

variable {σ : Type} [Store σ]

/-- The dump of the values from `offset` on, as far as the store reaches. -/
def view (e : Editor σ) (offset count : Nat) : Except EditError String := do
  let values ← e.view offset count
  let texts := lines (Store.width e.store) e.overlay.isChanged offset values
  return unlines (texts.map String.ofList)

/-- The dump of the runs and of the undo stack. -/
def runs (e : Editor σ) : String :=
  let runs := e.overlay.runs
  let history := e.overlay.history
  let count := runs.length
  let depth := history.depth
  let limit := history.limit
  let dropped := history.dropped
  unlines <|
    s!"=== 修改区段 ({count}) ===" :: runs.map (fun r => "  " ++ runText r) ++
    s!"=== 撤销栈 ({depth}/{limit}, 已丢弃 {dropped}) ===" ::
      history.entries.map (fun e => "  " ++ entryText e)

/-- A text written to a buffer that takes `capacity` bytes. -/
def within (capacity : Nat) (text : String) : Except EditError String :=
  if capacity < text.utf8ByteSize then .error Codec.fullBuffer else .ok text

end EditOverlay.Dump
