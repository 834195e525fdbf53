import EditOverlay.Error

/-! # Ranges

A range `[pos, pos + count)` of elements is inside a store of `length` elements, or it is
refused. -/

namespace EditOverlay

/-- The end of a range inside `length` elements. -/
def checkRange (pos count length : Nat) : Except EditError Nat :=
  if pos + count ≤ length then .ok (pos + count) else .error (.rangeOverflow pos count length)

theorem checkRange_eq_ok_iff {pos count length stop : Nat} :
    checkRange pos count length = .ok stop ↔ pos + count ≤ length ∧ stop = pos + count := by
  unfold checkRange
  split
  · simp_all [eq_comm]
  · simp only [reduceCtorEq, false_iff]
    omega

end EditOverlay
