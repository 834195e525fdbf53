import EditOverlay.Dump

/-! # Text: lines

A text is lines with a newline behind each, and what stands behind the last newline. `lines` takes
it apart. Lines that are put together come out as they were, with nothing behind them
(`lines_unlines`). -/

namespace EditOverlay

namespace Text

/-- The lines of a text, and what stands behind the last newline. -/
def lines : List Char → List (List Char) × List Char
  | [] => ([], [])
  | c :: cs =>
    if c = '\n' then ([] :: (lines cs).1, (lines cs).2)
    else
      match lines cs with
      | ([], last) => ([], c :: last)
      | (line :: others, last) => ((c :: line) :: others, last)

/-- Lines with a newline behind each. -/
def ended (ls : List (List Char)) : List Char := ls.flatMap (· ++ ['\n'])

theorem lines_append {line : List Char} (h : '\n' ∉ line) (cs : List Char) :
    lines (line ++ '\n' :: cs) = (line :: (lines cs).1, (lines cs).2) := by
  induction line with
  | nil => simp [lines]
  | cons c line ih =>
    simp only [List.mem_cons, not_or] at h
    simp [lines, ih h.2, Ne.symm h.1]

theorem lines_ended {ls : List (List Char)} (h : ∀ line ∈ ls, '\n' ∉ line) :
    lines (ended ls) = (ls, []) := by
  induction ls with
  | nil => rfl
  | cons line ls ih =>
    rw [List.forall_mem_cons] at h
    have hcons : ended (line :: ls) = line ++ '\n' :: ended ls := by simp [ended]
    rw [hcons, lines_append h.1, ih h.2]

end Text

namespace Dump

theorem toList_unlines (ls : List String) :
    (unlines ls).toList = Text.ended (ls.map String.toList) := by
  simp [unlines, Text.ended, String.toList_join, List.flatMap_map]

/-- **Lines that are put together are taken apart again.** -/
theorem lines_unlines {ls : List String} (h : ∀ line ∈ ls, '\n' ∉ line.toList) :
    Text.lines (unlines ls).toList = (ls.map String.toList, []) := by
  rw [toList_unlines, Text.lines_ended]
  intro line hline
  obtain ⟨text, htext, rfl⟩ := List.mem_map.mp hline
  exact h text htext

end Dump
end EditOverlay
