import EditOverlay.Overwrite
import EditOverlay.Run

/-! # Lists of runs

The edits of an overlay are a list of runs in ascending order. The list is kept in one form
(`Canonical`): no run is empty, and between two runs there is an element that neither covers. So
the runs are the maximal blocks of changed positions.

What a list means is the partial function `valueAt?` from positions to values. `write` overrides it
with a block, `window` restricts it to an interval and `apply` lays it over given elements.

* `valueAt?_write`: after a write the block's values count, and elsewhere what was there before.
* `Canonical.write`: a write of a block that is not empty keeps the form. -/

namespace EditOverlay

/-- Runs in ascending order. -/
abbrev RunList := List Run

namespace RunList

/-- The one form in which runs are kept. -/
structure Canonical (runs : RunList) : Prop where
  /-- Every run covers a position. -/
  nonempty : ∀ r ∈ runs, r.values ≠ []
  /-- Runs ascend, and neither meet nor touch. -/
  apart : runs.Pairwise fun r s => r.stop < s.start

/-- The value at a position, if some run covers it. -/
def valueAt? (runs : RunList) (p : Nat) : Option Nat := runs.findSome? (·.valueAt? p)

/-- The number of positions that the runs cover. -/
def count (runs : RunList) : Nat := runs.foldr (fun r n => r.length + n) 0

/-- Writes a block of values at `pos`. The runs that the block meets or touches become one run with
it, in which the block's values count. -/
def write (pos : Nat) (values : List Nat) : RunList → RunList
  | [] => [⟨pos, values⟩]
  | r :: rest =>
    if r.stop < pos then r :: write pos values rest
    else if pos + values.length < r.start then ⟨pos, values⟩ :: r :: rest
    else
      let merged := r.absorb pos values
      write merged.start merged.values rest

/-- The runs inside the interval `[lo, hi)`, cut off at its ends. -/
def window (runs : RunList) (lo hi : Nat) : RunList := runs.filterMap (Run.clip? lo hi)

/-- Lays the runs over the first `limit` elements of `target`, which stands for the positions from
`offset` on. -/
def apply (runs : RunList) (target : List Nat) (offset limit : Nat) : List Nat :=
  (runs.window offset (offset + min limit target.length)).foldl
    (fun elements r => overwrite elements (r.start - offset) r.values) target

theorem valueAt?_cons (r : Run) (runs : RunList) (p : Nat) :
    valueAt? (r :: runs) p = (r.valueAt? p).or (valueAt? runs p) := by
  unfold valueAt?
  rw [List.findSome?_cons]
  cases r.valueAt? p <;> rfl

/-- **Writing is overriding:** the block's values first, then the values of the runs. -/
theorem valueAt?_write (pos : Nat) (values : List Nat) (runs : RunList) (p : Nat) :
    (runs.write pos values).valueAt? p =
      ((⟨pos, values⟩ : Run).valueAt? p).or (runs.valueAt? p) := by
  induction runs generalizing pos values with
  | nil => rw [write, valueAt?_cons]
  | cons r rest ih =>
    rw [write]
    split
    · rename_i h
      rw [valueAt?_cons, valueAt?_cons, ih, ← Option.or_assoc, ← Option.or_assoc]
      congr 1
      by_cases hp : r.stop ≤ p
      · rw [Run.valueAt?_eq_none_iff.mpr (Or.inr hp)]
        simp
      · have hb : (⟨pos, values⟩ : Run).valueAt? p = none :=
          Run.valueAt?_eq_none_iff.mpr (Or.inl (by simp only; omega))
        simp [hb]
    · split
      · rw [valueAt?_cons]
      · rw [ih, Run.valueAt?_absorb (by omega) (by omega), valueAt?_cons, Option.or_assoc]

/-! ### The canonical form -/

theorem canonical_nil : Canonical [] := ⟨by simp, by simp⟩

theorem Canonical.tail {r : Run} {runs : RunList} (h : Canonical (r :: runs)) : Canonical runs :=
  ⟨fun s hs => h.nonempty s (List.mem_cons_of_mem r hs), (List.pairwise_cons.mp h.apart).2⟩

theorem lt_start_of_mem_write {bound pos : Nat} {values : List Nat} {runs : RunList} {s : Run}
    (hpos : bound < pos) (hruns : ∀ r ∈ runs, bound < r.start) (hs : s ∈ runs.write pos values) :
    bound < s.start := by
  induction runs generalizing pos values with
  | nil =>
    simp only [write, List.mem_singleton] at hs
    rw [hs]
    exact hpos
  | cons r rest ih =>
    have hr := hruns r List.mem_cons_self
    have hrest : ∀ r ∈ rest, bound < r.start := fun r h => hruns r (List.mem_cons_of_mem _ h)
    rw [write] at hs
    split at hs
    · rcases List.mem_cons.mp hs with rfl | hs
      · exact hr
      · exact ih hpos hrest hs
    · split at hs
      · rcases List.mem_cons.mp hs with rfl | hs
        · exact hpos
        · exact hruns s hs
      · exact ih (by simp only [Run.absorb]; omega) hrest hs

/-- **Writing keeps the canonical form.** -/
theorem Canonical.write {pos : Nat} {values : List Nat} {runs : RunList} (h : Canonical runs)
    (hv : values ≠ []) : Canonical (runs.write pos values) := by
  induction runs generalizing pos values with
  | nil => exact ⟨by simp [RunList.write, hv], by simp [RunList.write]⟩
  | cons r rest ih =>
    obtain ⟨happart, -⟩ := List.pairwise_cons.mp h.apart
    rw [RunList.write]
    split
    · rename_i hbefore
      have hrest : Canonical (RunList.write pos values rest) := ih h.tail hv
      refine ⟨fun s hs => ?_, List.pairwise_cons.mpr ⟨fun s hs => ?_, hrest.apart⟩⟩
      · rcases List.mem_cons.mp hs with rfl | hs
        · exact h.nonempty s List.mem_cons_self
        · exact hrest.nonempty s hs
      · exact lt_start_of_mem_write hbefore happart hs
    · split
      · rename_i hbehind
        refine ⟨fun s hs => ?_, List.pairwise_cons.mpr ⟨fun s hs => ?_, h.apart⟩⟩
        · rcases List.mem_cons.mp hs with rfl | hs
          · exact hv
          · exact h.nonempty s hs
        · have hstop : (⟨pos, values⟩ : Run).stop = pos + values.length := rfl
          rcases List.mem_cons.mp hs with rfl | hs
          · omega
          · have := happart s hs
            have : r.start ≤ r.stop := Nat.le_add_right _ _
            omega
      · exact ih h.tail (Run.absorb_values_ne_nil hv r)

end RunList
end EditOverlay
