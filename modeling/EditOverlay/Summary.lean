import EditOverlay.Overlay

/-! # Summaries

The state of an overlay in numbers, and its text in JSON: one member to a line, indented by two
blanks a level, and `[]` for an overlay without runs. -/

namespace EditOverlay

/-- Where a run lies. -/
structure Extent where
  start : Nat
  length : Nat
  deriving DecidableEq, Repr

/-- The state of an overlay in numbers. -/
structure Summary where
  widthBits : Nat
  length : Nat
  runCount : Nat
  changedCount : Nat
  undoDepth : Nat
  undoLimit : Nat
  undoDropped : Nat
  runs : List Extent
  deriving DecidableEq, Repr

/-- The summary of an overlay. -/
def Overlay.summary (o : Overlay) : Summary where
  widthBits := o.width.bits
  length := o.length
  runCount := o.runs.length
  changedCount := o.changedCount
  undoDepth := o.history.depth
  undoLimit := o.history.limit
  undoDropped := o.history.dropped
  runs := o.runs.map fun r => ⟨r.start, r.length⟩

namespace Summary

/-- A member with a number, at some depth of indentation. -/
def member (indent name : String) (n : Nat) : String := s!"{indent}\"{name}\": {n}"

/-- The text of an extent as an element of a list. -/
def extentText (x : Extent) : String :=
  "    \x7b\n" ++ member "      " "start" x.start ++ ",\n" ++ member "      " "len" x.length ++
    "\n    \x7d"

/-- The text of the list of runs. -/
def extentsText : List Extent → String
  | [] => "[]"
  | xs => "[\n" ++ ",\n".intercalate (xs.map extentText) ++ "\n  ]"

/-- The text of a summary in JSON. -/
def toJson (s : Summary) : String :=
  let numbers := [("width_bits", s.widthBits), ("blob_len", s.length), ("run_count", s.runCount),
    ("changed_elements", s.changedCount), ("undo_depth", s.undoDepth),
    ("stack_limit", s.undoLimit), ("undo_dropped", s.undoDropped)]
  let members := numbers.map (fun (name, n) => member "  " name n) ++
    ["  \"runs\": " ++ extentsText s.runs]
  "\x7b\n" ++ ",\n".intercalate members ++ "\n\x7d"

end Summary
end EditOverlay
