import EditOverlay.RunList
import Mathlib.Order.MinMax
import Mathlib.Tactic.SplitIfs

/-! # Lists of runs: shape

What the runs of a list look like after a write, and what the order of a canonical list says about
the values that it gives.

* `forall_mem_write`: a property of runs that absorbing keeps is kept by a write.
* `write_eq_cons`: a block that ends before all runs is put in front of them, so a run that was
  taken off goes back as it was.
* `Canonical.valueAt?_append`: of two parts of a canonical list only one gives a value, so their
  order does not matter. -/

namespace EditOverlay

namespace Run

/-- The run lies within the first `n` positions, and all its values are allowed. -/
def Within (Q : Nat → Prop) (n : Nat) (r : Run) : Prop := r.stop ≤ n ∧ ∀ v ∈ r.values, Q v

instance (Q : Nat → Prop) [DecidablePred Q] (n : Nat) : DecidablePred (Within Q n) := fun r =>
  inferInstanceAs (Decidable (r.stop ≤ n ∧ ∀ v ∈ r.values, Q v))

theorem start_le_stop (r : Run) : r.start ≤ r.stop := Nat.le_add_right _ _

theorem start_lt_stop {r : Run} (h : r.values ≠ []) : r.start < r.stop := by
  have := List.length_pos_iff.mpr h
  unfold stop length
  omega

theorem valueAt?_eq_some_iff {r : Run} {p v : Nat} :
    r.valueAt? p = some v ↔ r.start ≤ p ∧ r.values[p - r.start]? = some v := by
  unfold valueAt?
  split_ifs with h <;> simp [h]

theorem isSome_valueAt? {r : Run} {p : Nat} (h1 : r.start ≤ p) (h2 : p < r.stop) :
    (r.valueAt? p).isSome := by
  rw [Option.isSome_iff_ne_none, ne_eq, valueAt?_eq_none_iff]
  omega

theorem stop_absorb_le (pos : Nat) (values : List Nat) (r : Run) :
    (r.absorb pos values).stop ≤ max (pos + values.length) r.stop := by
  simp only [absorb, stop, length, List.length_append, List.length_take, List.length_drop]
  omega

theorem Within.absorb {Q : Nat → Prop} {n pos : Nat} {values : List Nat} {r : Run}
    (hb : Within Q n ⟨pos, values⟩) (hr : r.Within Q n) : (r.absorb pos values).Within Q n := by
  refine ⟨(stop_absorb_le pos values r).trans (max_le hb.1 hr.1), fun v hv => ?_⟩
  simp only [Run.absorb, List.mem_append] at hv
  rcases hv with (hv | hv) | hv
  · exact hr.2 v (List.mem_of_mem_take hv)
  · exact hb.2 v hv
  · exact hr.2 v (List.mem_of_mem_drop hv)

end Run

namespace RunList

variable {Q : Nat → Prop} {n pos : Nat} {values : List Nat} {runs : RunList}

/-! ### What a write leaves -/

/-- **A write keeps what absorbing keeps.** -/
theorem forall_mem_write {C : Run → Prop}
    (habsorb : ∀ pos values r, C ⟨pos, values⟩ → C r → C (r.absorb pos values))
    (hb : C ⟨pos, values⟩) (hr : ∀ r ∈ runs, C r) : ∀ s ∈ runs.write pos values, C s := by
  induction runs generalizing pos values with
  | nil =>
    intro s hs
    rw [write, List.mem_singleton] at hs
    rw [hs]
    exact hb
  | cons r rest ih =>
    have hr0 := hr r List.mem_cons_self
    have hrest : ∀ s ∈ rest, C s := fun s hs => hr s (List.mem_cons_of_mem _ hs)
    intro s hs
    rw [write] at hs
    split_ifs at hs
    · rcases List.mem_cons.mp hs with rfl | hs
      · exact hr0
      · exact ih hb hrest s hs
    · rcases List.mem_cons.mp hs with rfl | hs
      · exact hb
      · exact hr s hs
    · exact ih (habsorb pos values r hb hr0) hrest s hs

theorem forall_within_write (hb : Run.Within Q n ⟨pos, values⟩) (hr : ∀ r ∈ runs, r.Within Q n) :
    ∀ s ∈ runs.write pos values, s.Within Q n :=
  forall_mem_write (fun _ _ _ h1 h2 => h1.absorb h2) hb hr

theorem write_eq_cons (h : ∀ r ∈ runs, pos + values.length < r.start) :
    runs.write pos values = ⟨pos, values⟩ :: runs := by
  cases runs with
  | nil => rfl
  | cons r rest =>
    have h1 := h r List.mem_cons_self
    have h2 := r.start_le_stop
    rw [write, if_neg (by omega), if_pos h1]

/-! ### The order of a canonical list -/

theorem Canonical.stop_lt {r : Run} (h : Canonical (r :: runs)) : ∀ s ∈ runs, r.stop < s.start :=
  (List.pairwise_cons.mp h.apart).1

theorem Canonical.drop (h : Canonical runs) (k : Nat) : Canonical (runs.drop k) :=
  ⟨fun r hr => h.nonempty r (List.mem_of_mem_drop hr), h.apart.drop⟩

theorem Canonical.take (h : Canonical runs) (k : Nat) : Canonical (runs.take k) :=
  ⟨fun r hr => h.nonempty r (List.mem_of_mem_take hr), h.apart.take⟩

/-- **A run that was taken off goes back as it was.** -/
theorem Canonical.write_start {r : Run} (h : Canonical (r :: runs)) :
    runs.write r.start r.values = r :: runs := write_eq_cons h.stop_lt

theorem valueAt?_eq_none_of_forall {p : Nat} (h : ∀ r ∈ runs, r.valueAt? p = none) :
    runs.valueAt? p = none := by
  unfold valueAt?
  rw [List.findSome?_eq_none_iff]
  exact h

theorem exists_mem_of_valueAt? {p v : Nat} (h : runs.valueAt? p = some v) :
    ∃ r ∈ runs, r.valueAt? p = some v := List.exists_of_findSome?_eq_some h

theorem Canonical.valueAt?_tail {r : Run} {p : Nat} (h : Canonical (r :: runs)) (hp : p ≤ r.stop) :
    runs.valueAt? p = none := by
  refine valueAt?_eq_none_of_forall fun s hs => ?_
  have := h.stop_lt s hs
  exact Run.valueAt?_eq_none_iff.mpr (Or.inl (by omega))

theorem valueAt?_append (runs rest : RunList) (p : Nat) :
    valueAt? (runs ++ rest) p = (runs.valueAt? p).or (valueAt? rest p) := List.findSome?_append

theorem Canonical.valueAt?_eq_none {rest : RunList} {p v : Nat} (h : Canonical (runs ++ rest))
    (hv : rest.valueAt? p = some v) : runs.valueAt? p = none := by
  obtain ⟨s, hs, hsv⟩ := exists_mem_of_valueAt? hv
  refine valueAt?_eq_none_of_forall fun r hr => ?_
  have hrs := (List.pairwise_append.mp h.apart).2.2 r hr s hs
  have hstart := (Run.valueAt?_eq_some_iff.mp hsv).1
  exact Run.valueAt?_eq_none_iff.mpr (Or.inr (by omega))

/-- **Only one of two parts gives a value,** so the second part may come first. -/
theorem Canonical.valueAt?_append {rest : RunList} (h : Canonical (runs ++ rest)) (p : Nat) :
    valueAt? (runs ++ rest) p = (valueAt? rest p).or (runs.valueAt? p) := by
  rw [RunList.valueAt?_append]
  cases hv : valueAt? rest p with
  | none => simp
  | some v => rw [h.valueAt?_eq_none hv, Option.none_or, Option.some_or]

theorem Canonical.valueAt?_cons {r : Run} (h : Canonical (r :: runs)) (p : Nat) :
    valueAt? (r :: runs) p = (runs.valueAt? p).or (r.valueAt? p) := by
  have hsingle : valueAt? [r] p = r.valueAt? p := by
    rw [RunList.valueAt?_cons]
    exact Option.or_none
  have happend := (show Canonical ([r] ++ runs) from h).valueAt?_append p
  rwa [hsingle] at happend

theorem Canonical.valueAt?_take_drop (h : Canonical runs) (k p : Nat) :
    runs.valueAt? p = (valueAt? (runs.drop k) p).or (valueAt? (runs.take k) p) := by
  rw [← Canonical.valueAt?_append (by rwa [List.take_append_drop]), List.take_append_drop]

/-- **What any run of a canonical list gives, the list gives:** no run before it hides it. -/
theorem Canonical.valueAt?_of_mem {r : Run} {p v : Nat} (h : Canonical runs) (hr : r ∈ runs)
    (hv : r.valueAt? p = some v) : runs.valueAt? p = some v := by
  induction runs with
  | nil => cases hr
  | cons s rest ih =>
    rcases List.mem_cons.mp hr with rfl | hr
    · rw [RunList.valueAt?_cons, hv, Option.some_or]
    · rw [h.valueAt?_cons, ih h.tail hr, Option.some_or]

theorem lt_of_valueAt? {p v : Nat} (h : ∀ r ∈ runs, r.Within Q n) (hv : runs.valueAt? p = some v) :
    p < n := by
  obtain ⟨r, hr, hrv⟩ := exists_mem_of_valueAt? hv
  have hstop : ¬ r.stop ≤ p := fun hle => by
    rw [Run.valueAt?_eq_none_iff.mpr (Or.inr hle)] at hrv
    cases hrv
  have := (h r hr).1
  omega

theorem allowed_of_valueAt? {p v : Nat} (h : ∀ r ∈ runs, r.Within Q n)
    (hv : runs.valueAt? p = some v) : Q v := by
  obtain ⟨r, hr, hrv⟩ := exists_mem_of_valueAt? hv
  exact (h r hr).2 v (List.mem_of_getElem? (Run.valueAt?_eq_some_iff.mp hrv).2)

end RunList
end EditOverlay
