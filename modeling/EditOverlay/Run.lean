/-! # Runs

A run is a block of consecutive elements with new values.

* `valueAt?_eq_none_iff`: a run covers the positions from its start to its stop.
* `valueAt?_absorb`: a run and a block that meet or touch become one run, in which the block's
  values count. -/

namespace EditOverlay

/-- New values for the elements from `start` on. -/
structure Run where
  start : Nat
  values : List Nat
  deriving DecidableEq, Repr

namespace Run

/-- The number of elements. -/
def length (r : Run) : Nat := r.values.length

/-- The position behind the last element. -/
def stop (r : Run) : Nat := r.start + r.length

/-- The value at a position, if the run covers it. -/
def valueAt? (r : Run) (p : Nat) : Option Nat :=
  if r.start ≤ p then r.values[p - r.start]? else none

/-- The part of the run inside `[lo, hi)`, if there is any. -/
def clip? (lo hi : Nat) (r : Run) : Option Run :=
  let first := max lo r.start
  let last := min hi r.stop
  if first < last then
    some ⟨first, (r.values.drop (first - r.start)).take (last - first)⟩
  else none

/-- The run that covers what `r` and the block `values` at `pos` cover, for a block that meets `r`
or touches it. Where both have a value, the block's counts. -/
def absorb (pos : Nat) (values : List Nat) (r : Run) : Run where
  start := min pos r.start
  values :=
    r.values.take (pos - r.start) ++ values ++ r.values.drop (pos + values.length - r.start)

theorem valueAt?_eq_none_iff {r : Run} {p : Nat} :
    r.valueAt? p = none ↔ p < r.start ∨ r.stop ≤ p := by
  unfold valueAt? stop length
  split
  · rw [List.getElem?_eq_none_iff]
    omega
  · simp only [true_iff]
    omega

theorem absorb_values_ne_nil {pos : Nat} {values : List Nat} (h : values ≠ []) (r : Run) :
    (r.absorb pos values).values ≠ [] := by
  simp [absorb, h]

/-- **Absorbing is overriding:** the block's values first, then the run's. -/
theorem valueAt?_absorb {pos : Nat} {values : List Nat} {r : Run} (h1 : pos ≤ r.stop)
    (h2 : r.start ≤ pos + values.length) (p : Nat) :
    (r.absorb pos values).valueAt? p =
      ((⟨pos, values⟩ : Run).valueAt? p).or (r.valueAt? p) := by
  unfold stop length at h1
  have htake : (r.values.take (pos - r.start)).length = pos - r.start := by
    rw [List.length_take]
    omega
  simp only [valueAt?, absorb, List.append_assoc]
  by_cases hp : p < min pos r.start
  · rw [if_neg (by omega), if_neg (by omega), if_neg (by omega)]
    rfl
  rw [if_pos (by omega)]
  by_cases hbefore : p < pos
  · rw [if_neg (by omega), if_pos (by omega), List.getElem?_append_left (by omega),
      List.getElem?_take_of_lt (by omega), Nat.min_eq_right (by omega)]
    rfl
  rw [if_pos (by omega), List.getElem?_append_right (by omega), htake]
  have hindex : p - min pos r.start - (pos - r.start) = p - pos := by omega
  rw [hindex]
  by_cases hinside : p < pos + values.length
  · rw [List.getElem?_append_left (by omega), List.getElem?_eq_getElem (by omega)]
    rfl
  · rw [List.getElem?_append_right (by omega), List.getElem?_drop, if_pos (by omega),
      List.getElem?_eq_none (by omega : values.length ≤ p - pos), Option.none_or]
    congr 1
    omega

end Run
end EditOverlay
