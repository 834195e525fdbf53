import EditOverlay.Proofs.Editor.Dump
import EditOverlay.Proofs.RunList.Scan
import EditOverlay.Proofs.Text.Lines
import EditOverlay.Proofs.Text.Number
import EditOverlay.Summary
import EditOverlay.Text.Cut

/-! # Dumps: reading runs and entries back

A reader of dumps of runs and of the undo stack. Each line is fixed texts with numbers between them,
and the number of runs stands in front, so the lines of the runs are told from those of the entries
(`listing?`). From the dump of an editor it gets where the runs lie, the numbers of the undo stack,
and the entries with the newest first (`listing?_runs`). -/

namespace EditOverlay

theorem Numeral.isAlphanum_of_mem_decimal {n : Nat} {c : Char} (h : c ∈ decimal n) :
    c.isAlphanum = true :=
  (renders_decimal n).isAlphanum (by decide) (by decide) c h

namespace Dump

/-! ### The reader -/

/-- Where a run lies, by the positions at its ends and by its length. -/
structure Block where
  start : Nat
  stop : Nat
  length : Nat
  deriving DecidableEq, Repr

/-- What a dump of runs tells. An entry is told by its position and the number of its values. -/
structure Listing where
  blocks : List Block
  depth : Nat
  limit : Nat
  dropped : Nat
  entries : List Extent
  deriving DecidableEq, Repr

/-- What stands behind a mark at the front of a text. -/
def after? (mark : String) (text : List Char) : Option (List Char) := text.dropPrefix? mark.toList

/-- A number up to a character, and what stands behind the character. -/
def field? (radix : Nat) (stop : Char) (text : List Char) : Option (Nat × List Char) := do
  let (digits, rest) ← Text.cut? stop text
  let n ← Numeral.number? radix digits
  return (n, rest)

/-- Reads the line of a run. -/
def block? (text : List Char) : Option Block := do
  let text ← after? "  [" text
  let (start, text) ← field? 16 ',' text
  let text ← after? " " text
  let (stop, text) ← field? 16 ')' text
  let text ← after? " " text
  let (length, text) ← field? 10 ' ' text
  guard (text = "个元素".toList)
  return ⟨start, stop, length⟩

/-- Reads the line of an entry. -/
def entry? (text : List Char) : Option Extent := do
  let text ← after? "  [" text
  let (position, text) ← field? 16 ']' text
  let text ← after? " " text
  let (length, text) ← field? 10 ' ' text
  guard (text = "个元素".toList)
  return ⟨position, length⟩

/-- Reads the line before the runs: their number. -/
def runsTitle? (text : List Char) : Option Nat := do
  let text ← after? "=== 修改区段 (" text
  let (count, text) ← field? 10 ')' text
  guard (text = " ===".toList)
  return count

/-- Reads the line before the entries: their number, the limit, and how many were dropped. -/
def stackTitle? (text : List Char) : Option (Nat × Nat × Nat) := do
  let text ← after? "=== 撤销栈 (" text
  let (depth, text) ← field? 10 '/' text
  let (limit, text) ← field? 10 ',' text
  let text ← after? " 已丢弃 " text
  let (dropped, text) ← field? 10 ')' text
  guard (text = " ===".toList)
  return (depth, limit, dropped)

/-- Reads the lines of a dump of runs. -/
def listingLines? : List (List Char) → Option Listing
  | [] => none
  | title :: lines => do
    let count ← runsTitle? title
    let blocks ← (lines.take count).mapM block?
    match lines.drop count with
    | [] => none
    | title :: lines => do
      let (depth, limit, dropped) ← stackTitle? title
      let entries ← lines.mapM entry?
      return ⟨blocks, depth, limit, dropped, entries⟩

/-- Reads a dump of runs, with a newline behind each line. -/
def listing? (text : List Char) : Option Listing :=
  if (Text.lines text).2 = [] then listingLines? (Text.lines text).1 else none

/-! ### Fields -/

theorem after?_append (mark : String) (rest : List Char) :
    after? mark (mark.toList ++ rest) = some rest :=
  List.dropPrefix?_append_of_beq rest (beq_self_eq_true _)

theorem field?_position {stop : Char} (hstop : stop.isAlphanum = false) (n : Nat)
    (rest : List Char) : field? 16 stop (position n ++ stop :: rest) = some (n, rest) := by
  have hnot : stop ∉ position n := fun h => by
    rw [Numeral.isAlphanum_of_mem_hexPadded h] at hstop
    cases hstop
  rw [field?, Text.cut?_append hnot, position, Option.bind_eq_bind, Option.bind_some]
  simp only [Numeral.number?_hexPadded]
  rfl

theorem field?_decimal {stop : Char} (hstop : stop.isAlphanum = false) (n : Nat)
    (rest : List Char) :
    field? 10 stop (Numeral.decimal n ++ stop :: rest) = some (n, rest) := by
  have hnot : stop ∉ Numeral.decimal n := fun h => by
    rw [Numeral.isAlphanum_of_mem_decimal h] at hstop
    cases hstop
  rw [field?, Text.cut?_append hnot, Option.bind_eq_bind, Option.bind_some]
  simp only [Numeral.number?_decimal]
  rfl

/-! ### Lines -/

theorem toString_text (s : String) : toString s = s := rfl

theorem toList_runLine (r : Run) : ("  " ++ runText r).toList =
    "  [".toList ++ (position r.start ++ ',' :: (" ".toList ++ (position r.stop ++ ')' ::
      (" ".toList ++ (Numeral.decimal r.length ++ ' ' :: "个元素".toList))))) := by
  simp [runText, toString_text, Numeral.decimal]

theorem toList_entryLine (e : UndoEntry) : ("  " ++ entryText e).toList =
    "  [".toList ++ (position e.position ++ ']' ::
      (" ".toList ++ (Numeral.decimal e.previous.length ++ ' ' :: "个元素".toList))) := by
  simp [entryText, toString_text, Numeral.decimal]

theorem toList_runsTitle (count : Nat) : s!"=== 修改区段 ({count}) ===".toList =
    "=== 修改区段 (".toList ++ (Numeral.decimal count ++ ')' :: " ===".toList) := by
  simp [toString_text, Numeral.decimal]

theorem toList_stackTitle (depth limit dropped : Nat) :
    s!"=== 撤销栈 ({depth}/{limit}, 已丢弃 {dropped}) ===".toList =
      "=== 撤销栈 (".toList ++ (Numeral.decimal depth ++ '/' :: (Numeral.decimal limit ++ ',' ::
        (" 已丢弃 ".toList ++ (Numeral.decimal dropped ++ ')' :: " ===".toList)))) := by
  simp [toString_text, Numeral.decimal]

theorem block?_runLine (r : Run) :
    block? ("  " ++ runText r).toList = some ⟨r.start, r.stop, r.length⟩ := by
  rw [toList_runLine, block?]
  simp only [after?_append, field?_position (show ','.isAlphanum = false by decide),
    field?_position (show ')'.isAlphanum = false by decide),
    field?_decimal (show ' '.isAlphanum = false by decide), Option.bind_eq_bind, Option.bind_some]
  rfl

theorem entry?_entryLine (e : UndoEntry) :
    entry? ("  " ++ entryText e).toList = some ⟨e.position, e.previous.length⟩ := by
  rw [toList_entryLine, entry?]
  simp only [after?_append, field?_position (show ']'.isAlphanum = false by decide),
    field?_decimal (show ' '.isAlphanum = false by decide), Option.bind_eq_bind, Option.bind_some]
  rfl

theorem runsTitle?_title (count : Nat) :
    runsTitle? s!"=== 修改区段 ({count}) ===".toList = some count := by
  rw [toList_runsTitle, runsTitle?]
  simp only [after?_append, field?_decimal (show ')'.isAlphanum = false by decide),
    Option.bind_eq_bind, Option.bind_some]
  rfl

theorem stackTitle?_title (depth limit dropped : Nat) :
    stackTitle? s!"=== 撤销栈 ({depth}/{limit}, 已丢弃 {dropped}) ===".toList =
      some (depth, limit, dropped) := by
  rw [toList_stackTitle, stackTitle?]
  simp only [after?_append, field?_decimal (show '/'.isAlphanum = false by decide),
    field?_decimal (show ','.isAlphanum = false by decide),
    field?_decimal (show ')'.isAlphanum = false by decide), Option.bind_eq_bind, Option.bind_some]
  rfl

/-! ### Dumps -/

theorem newline_notMem_decimal (n : Nat) : '\n' ∉ Numeral.decimal n := fun h =>
  absurd (Numeral.isAlphanum_of_mem_decimal h) (by decide)

theorem newline_notMem_position (p : Nat) : '\n' ∉ position p := newline_notMem_hexPadded _ _

/-- **The lines are read back,** if the number of runs in front is right. -/
theorem listing?_unlines (runs : List Run) (entries : List UndoEntry) (depth limit dropped : Nat) :
    listing? (unlines (
      s!"=== 修改区段 ({runs.length}) ===" :: runs.map (fun r => "  " ++ runText r) ++
      s!"=== 撤销栈 ({depth}/{limit}, 已丢弃 {dropped}) ===" ::
        entries.map (fun u => "  " ++ entryText u))).toList =
      some ⟨runs.map fun r => ⟨r.start, r.stop, r.length⟩, depth, limit, dropped,
        entries.map fun u => ⟨u.position, u.previous.length⟩⟩ := by
  rw [listing?, lines_unlines, if_pos rfl]
  · have hruns : (runs.map fun r => ("  " ++ runText r).toList).mapM block? =
        some (runs.map fun r => ⟨r.start, r.stop, r.length⟩) := by
      rw [List.mapM_map]
      exact RunList.mapM_eq_some_map fun r _ => block?_runLine r
    have hentries : (entries.map fun u => ("  " ++ entryText u).toList).mapM entry? =
        some (entries.map fun u => ⟨u.position, u.previous.length⟩) := by
      rw [List.mapM_map]
      exact RunList.mapM_eq_some_map fun u _ => entry?_entryLine u
    have hlength : (runs.map fun r => ("  " ++ runText r).toList).length = runs.length :=
      List.length_map _
    simp only [List.map_cons, List.map_append, List.map_map, List.cons_append, Function.comp_def,
      listingLines?]
    rw [runsTitle?_title, Option.bind_eq_bind, Option.bind_some, ← hlength, List.take_left,
      List.drop_left, hruns, Option.bind_eq_bind, Option.bind_some]
    simp only [stackTitle?_title, hentries, Option.bind_eq_bind, Option.bind_some]
    rfl
  · intro line hline
    simp only [List.cons_append, List.mem_cons, List.mem_append, List.mem_map] at hline
    rcases hline with rfl | ⟨r, -, rfl⟩ | rfl | ⟨u, -, rfl⟩
    · rw [toList_runsTitle]
      simp [newline_notMem_decimal]
    · rw [toList_runLine]
      simp [newline_notMem_decimal, newline_notMem_position]
    · rw [toList_stackTitle]
      simp [newline_notMem_decimal]
    · rw [toList_entryLine]
      simp [newline_notMem_decimal, newline_notMem_position]

/-- **A dump of runs is read back:** where the runs lie, in their order; the numbers of the undo
stack; and the entries, the newest first. -/
theorem listing?_runs {σ : Type} (e : Editor σ) : listing? (runs e).toList =
    some ⟨e.overlay.runs.map fun r => ⟨r.start, r.stop, r.length⟩, e.overlay.history.depth,
      e.overlay.history.limit, e.overlay.history.dropped,
      e.overlay.history.entries.map fun u => ⟨u.position, u.previous.length⟩⟩ :=
  listing?_unlines e.overlay.runs e.overlay.history.entries _ _ _

end Dump
end EditOverlay
