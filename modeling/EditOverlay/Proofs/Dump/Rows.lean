import EditOverlay.Proofs.Editor.Dump
import EditOverlay.Proofs.RunList.Scan
import EditOverlay.Proofs.Text.Lines
import EditOverlay.Proofs.Text.Number
import EditOverlay.Proofs.Text.Slices
import EditOverlay.Text.Cut

/-! # Dumps: reading values back

A reader of value dumps that knows the number of digits of a value, and nothing else. It takes the
number before the colon of a line for its address, and cuts what is behind the colon into groups of
a mark and the digits (`read?`). From a dump of values that fit the width it gets the addresses, and
the values with their marks (`read?_unlines`). -/

namespace EditOverlay.Dump

/-- A value as a dump shows it. -/
structure Cell where
  marked : Bool
  value : Nat
  deriving DecidableEq, Repr

/-- A line of a dump. -/
structure Row where
  address : Nat
  cells : List Cell
  deriving DecidableEq, Repr

/-! ### The reader -/

/-- Reads a mark. -/
def mark? (c : Char) : Option Bool :=
  if c = '*' then some true else if c = ' ' then some false else none

/-- Reads a mark and as many digits as given. -/
def cell? (digits : Nat) : List Char → Option Cell
  | [] => none
  | mark :: text => do
    let marked ← mark? mark
    guard (text.length = digits)
    let value ← Numeral.number? 16 text
    return ⟨marked, value⟩

/-- Reads a line. -/
def row? (digits : Nat) (text : List Char) : Option Row := do
  let (position, groups) ← Text.cut? ':' text
  let address ← Numeral.number? 16 position
  let cells ← (slices (digits + 1) groups).mapM (cell? digits)
  return ⟨address, cells⟩

/-- Reads lines with a newline behind each. -/
def read? (digits : Nat) (text : List Char) : Option (List Row) :=
  if (Text.lines text).2 = [] then (Text.lines text).1.mapM (row? digits) else none

/-! ### What is to be read -/

/-- The values from `start` on with their marks. -/
def cells (changed : Nat → Bool) (start : Nat) (values : List Nat) : List Cell :=
  values.zipIdx.map fun (value, i) => ⟨changed (start + i), value⟩

/-- The lines for values from `offset` on. -/
def table (changed : Nat → Bool) (offset : Nat) (values : List Nat) : List Row :=
  (rows values).zipIdx.map fun (row, i) =>
    ⟨offset + perLine * i, cells changed (offset + perLine * i) row⟩

variable {w : Width} {changed : Nat → Bool} {start offset : Nat} {values : List Nat}

theorem getElem?_cells (changed : Nat → Bool) (start : Nat) (values : List Nat) (k : Nat) :
    (cells changed start values)[k]? = values[k]?.map fun v => ⟨changed (start + k), v⟩ := by
  rw [cells, List.getElem?_map, List.getElem?_zipIdx, Option.map_map, Nat.zero_add]
  rfl

theorem drop_cells (changed : Nat → Bool) (start : Nat) (values : List Nat) (m : Nat) :
    (cells changed start values).drop m = cells changed (start + m) (values.drop m) := by
  refine List.ext_getElem? fun k => ?_
  rw [List.getElem?_drop, getElem?_cells, getElem?_cells, List.getElem?_drop, Nat.add_assoc]

theorem take_cells (changed : Nat → Bool) (start : Nat) (values : List Nat) (m : Nat) :
    (cells changed start values).take m = cells changed start (values.take m) := by
  refine List.ext_getElem? fun k => ?_
  rw [getElem?_cells, List.getElem?_take, List.getElem?_take, getElem?_cells]
  split_ifs <;> rfl

theorem length_table (changed : Nat → Bool) (offset : Nat) (values : List Nat) :
    (table changed offset values).length = (values.length + 15) / 16 := by
  rw [table, List.length_map, List.length_zipIdx, rows_eq_slices, length_slices, perLine,
    Nat.add_sub_assoc (by decide)]

theorem getElem?_table (changed : Nat → Bool) (offset : Nat) (values : List Nat) (i : Nat) :
    (table changed offset values)[i]? = (rows values)[i]?.map fun row =>
      ⟨offset + perLine * i, cells changed (offset + perLine * i) row⟩ := by
  rw [table, List.getElem?_map, List.getElem?_zipIdx, Option.map_map, Nat.zero_add]
  rfl

theorem map_cells_table (changed : Nat → Bool) (offset : Nat) (values : List Nat) :
    (table changed offset values).map Row.cells = slices perLine (cells changed offset values) := by
  have hlength : (cells changed offset values).length = values.length := by
    rw [cells, List.length_map, List.length_zipIdx]
  refine List.ext_getElem? fun i => ?_
  rw [List.getElem?_map, getElem?_table, rows_eq_slices, getElem?_slices, getElem?_slices,
    length_slices, length_slices, hlength, drop_cells, take_cells]
  split_ifs <;> rfl

/-- **In all lines together stand the values with their marks.** -/
theorem flatMap_cells_table (changed : Nat → Bool) (offset : Nat) (values : List Nat) :
    (table changed offset values).flatMap Row.cells = cells changed offset values := by
  rw [List.flatMap_def, map_cells_table, flatten_slices (by decide)]

theorem row_of_getElem?_table {i : Nat} {row : Row}
    (h : (table changed offset values)[i]? = some row) : row.address = offset + 16 * i ∧
      (i + 1 < (table changed offset values).length → row.cells.length = 16) := by
  have hslice : (slices perLine (cells changed offset values))[i]? = some row.cells := by
    rw [← map_cells_table, List.getElem?_map, h, Option.map_some]
  rw [getElem?_table] at h
  obtain ⟨values', -, rfl⟩ := Option.map_eq_some_iff.mp h
  refine ⟨rfl, fun hi => ?_⟩
  have hlength : (slices perLine (cells changed offset values)).length =
      (table changed offset values).length := by rw [← map_cells_table, List.length_map]
  rw [← hlength] at hi
  exact length_of_getElem?_slices (by decide) hslice hi

/-! ### Reading back -/

theorem cell?_cell (marked : Bool) {value : Nat} (h : value < 16 ^ w.hexDigits) :
    cell? w.hexDigits (cell w marked value) = some ⟨marked, value⟩ := by
  have hdigits : 0 < w.hexDigits := by cases w <;> decide
  have hmark : mark? (if marked then '*' else ' ') = some marked := by cases marked <;> rfl
  simp [cell, cell?, hmark, Numeral.length_hexPadded hdigits h, Numeral.number?_hexPadded]

theorem line_eq (w : Width) (changed : Nat → Bool) (start : Nat) (values : List Nat) :
    line w changed start values = position start ++ ':' ::
      (cells changed start values).flatMap fun c => cell w c.marked c.value := by
  rw [line, cells, List.flatMap_map]

/-- **A line is read back,** if its values fit. -/
theorem row?_line (h : ∀ v ∈ values, v < 16 ^ w.hexDigits) :
    row? w.hexDigits (line w changed start values) = some ⟨start, cells changed start values⟩ := by
  have hcolon : ':' ∉ position start := fun hmem =>
    absurd (Numeral.isAlphanum_of_mem_hexPadded hmem) (by decide)
  have hfits : ∀ c ∈ cells changed start values, c.value < 16 ^ w.hexDigits := by
    intro c hc
    obtain ⟨⟨v, i⟩, hv, rfl⟩ := List.mem_map.mp hc
    exact h v (List.fst_mem_of_mem_zipIdx hv)
  have hsize : ∀ c ∈ cells changed start values,
      (cell w c.marked c.value).length = w.hexDigits + 1 := fun c hc => by
    rw [cell, List.length_cons, Numeral.length_hexPadded (by cases w <;> decide) (hfits c hc)]
  have hread : ∀ c ∈ cells changed start values,
      (cell? w.hexDigits ∘ fun c => cell w c.marked c.value) c = some (id c) := fun c hc =>
    cell?_cell c.marked (hfits c hc)
  have hgroups : ((cells changed start values).map fun c => cell w c.marked c.value).mapM
      (cell? w.hexDigits) = some (cells changed start values) := by
    rw [List.mapM_map, RunList.mapM_eq_some_map hread, List.map_id]
  rw [line_eq, row?, Text.cut?_append hcolon, Option.bind_eq_bind, Option.bind_some]
  simp only [position, Numeral.number?_hexPadded, slices_flatMap (Nat.succ_pos _) hsize, hgroups]
  rfl

theorem read?_unlines (h : ∀ v ∈ values, v < 16 ^ w.hexDigits) :
    read? w.hexDigits (unlines ((lines w changed offset values).map String.ofList)).toList =
      some (table changed offset values) := by
  have hlines : Text.lines (unlines ((lines w changed offset values).map String.ofList)).toList =
      (lines w changed offset values, []) := by
    rw [lines_unlines fun text htext => ?_, List.map_map]
    · simp [Function.comp_def]
    · obtain ⟨line, hline, rfl⟩ := List.mem_map.mp htext
      rw [String.toList_ofList]
      exact newline_notMem_of_mem_lines hline
  have hrows : ∀ row ∈ (rows values).zipIdx, ∀ v ∈ row.1, v < 16 ^ w.hexDigits := by
    intro row hrow v hv
    refine h v ?_
    rw [← flatten_slices (n := perLine) (by decide) values]
    exact List.mem_flatten.mpr ⟨row.1, List.fst_mem_of_mem_zipIdx hrow, hv⟩
  rw [read?, hlines, if_pos rfl, lines, List.mapM_map, table]
  exact RunList.mapM_eq_some_map fun row hrow => row?_line (hrows row hrow)

end EditOverlay.Dump
