import EditOverlay.Dump
import EditOverlay.Proofs.Editor.Shown
import EditOverlay.Proofs.Text.Numeral

/-! # Editors: dumps

The dump of a sound editor shows its elements from an offset on (`Editor.Sound.view_eq`,
`Dump.view_eq`). Of its characters only the marks tell which elements are changed: with the marks
taken off (`Dump.unmark`) the lines are those of an editor with the same elements and without
changes (`Dump.map_unmark_lines`). -/

namespace EditOverlay

/-! ### Digits -/

namespace Numeral

theorem isAlphanum_of_mem_hexPadded {width n : Nat} {c : Char} (h : c ∈ hexPadded width n) :
    c.isAlphanum = true :=
  (renders_hexPadded width n).isAlphanum (by decide) (by decide) c h

end Numeral

/-! ### Marks -/

namespace Dump

/-- The character without the mark of a change: a star becomes a blank. -/
def unmark (c : Char) : Char := if c = '*' then ' ' else c

theorem map_unmark_hexPadded (width n : Nat) :
    (Numeral.hexPadded width n).map unmark = Numeral.hexPadded width n := by
  have hsame : ∀ c ∈ Numeral.hexPadded width n, unmark c = c := by
    intro c hc
    have hstar : c ≠ '*' := by
      rintro rfl
      exact absurd (Numeral.isAlphanum_of_mem_hexPadded hc) (by decide)
    rw [unmark, if_neg hstar]
  rw [List.map_congr_left hsame, List.map_id']

theorem map_unmark_cell (w : Width) (changed : Bool) (value : Nat) :
    (cell w changed value).map unmark = cell w false value := by
  rw [cell, cell, List.map_cons, map_unmark_hexPadded]
  cases changed <;> rfl

theorem map_unmark_line (w : Width) (changed : Nat → Bool) (start : Nat) (values : List Nat) :
    (line w changed start values).map unmark = line w (fun _ => false) start values := by
  rw [line, line, List.map_append, List.map_cons, position, map_unmark_hexPadded, List.map_flatMap]
  simp only [map_unmark_cell]
  rfl

/-- **Without the marks the lines do not tell what is changed.** -/
theorem map_unmark_lines (w : Width) (changed : Nat → Bool) (offset : Nat) (values : List Nat) :
    (lines w changed offset values).map (List.map unmark) =
      lines w (fun _ => false) offset values := by
  rw [lines, lines, List.map_map]
  refine List.map_congr_left fun row _ => ?_
  exact map_unmark_line w changed _ row.1

theorem length_lines (w : Width) (changed : Nat → Bool) (offset : Nat) (values : List Nat) :
    (lines w changed offset values).length = (values.length + 15) / 16 := by
  rw [lines, List.length_map, List.length_zipIdx, rows, List.length_map, List.length_range, perLine,
    Nat.add_sub_assoc (by decide)]

theorem newline_notMem_hexPadded (width n : Nat) : '\n' ∉ Numeral.hexPadded width n := fun h =>
  absurd (Numeral.isAlphanum_of_mem_hexPadded h) (by decide)

theorem newline_notMem_line (w : Width) (changed : Nat → Bool) (start : Nat) (values : List Nat) :
    '\n' ∉ line w changed start values := by
  intro h
  rcases List.mem_append.mp h with hposition | hvalues
  · exact newline_notMem_hexPadded _ _ hposition
  · rcases List.mem_cons.mp hvalues with hcolon | hcells
    · cases hcolon
    · obtain ⟨⟨value, i⟩, -, hcell⟩ := List.mem_flatMap.mp hcells
      rcases List.mem_cons.mp hcell with hmark | hdigits
      · split_ifs at hmark <;> cases hmark
      · exact newline_notMem_hexPadded _ _ hdigits

theorem newline_notMem_of_mem_lines {w : Width} {changed : Nat → Bool} {offset : Nat}
    {values : List Nat} {text : List Char} (h : text ∈ lines w changed offset values) :
    '\n' ∉ text := by
  obtain ⟨⟨row, i⟩, -, rfl⟩ := List.mem_map.mp h
  exact newline_notMem_line w changed _ row

theorem unlines_cons (line : String) (lines : List String) :
    unlines (line :: lines) = line ++ "\n" ++ unlines lines := by
  rw [unlines, List.map_cons, String.join_cons]
  rfl

theorem exists_unlines_eq {lines : List String} (h : lines ≠ []) :
    ∃ before, unlines lines = before ++ "\n" := by
  induction lines with
  | nil => exact absurd rfl h
  | cons line lines ih =>
    rw [unlines_cons]
    cases lines with
    | nil => exact ⟨line, String.append_empty⟩
    | cons next lines =>
      obtain ⟨before, hbefore⟩ := ih (List.cons_ne_nil _ _)
      exact ⟨line ++ "\n" ++ before, by rw [hbefore, ← String.append_assoc]⟩

end Dump

/-! ### What is shown -/

namespace Editor

open RunList

variable {σ : Type} [Store σ] {sound : σ → Prop} {contents : σ → List Nat} {e : Editor σ}
  {offset : Nat}

/-- **What is viewed is what is shown,** as far as it goes. -/
theorem Sound.view_eq (hlaw : Store.Lawful sound contents) (h : Sound sound contents e)
    (count : Nat) : e.view offset count =
      if e.overlay.length < offset then .error (.outOfRange offset e.overlay.length)
      else .ok (((shown contents e).drop offset).take count) := by
  rw [view_eq_values (h.laidOver hlaw), ← h.length_eq]
  split_ifs with hoffset
  · rfl
  · have hshown : ((shown contents e).drop offset).length = e.overlay.length - offset := by
      rw [List.length_drop, h.length_shown]
    rw [h.values_eq hlaw (by omega), List.drop_take, Nat.add_sub_cancel_left, ← hshown,
      ← List.take_eq_take_min]

end Editor

theorem Dump.view_eq {σ : Type} [Store σ] {sound : σ → Prop} {contents : σ → List Nat}
    {e : Editor σ} (hlaw : Store.Lawful sound contents) (h : Editor.Sound sound contents e)
    (offset count : Nat) : Dump.view e offset count =
      if e.overlay.length < offset then .error (.outOfRange offset e.overlay.length)
      else .ok (unlines ((lines e.overlay.width e.overlay.isChanged offset
        (((Editor.shown contents e).drop offset).take count)).map String.ofList)) := by
  unfold view
  rw [h.view_eq hlaw, h.width_eq]
  split_ifs <;> rfl

end EditOverlay
