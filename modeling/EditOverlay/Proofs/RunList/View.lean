import EditOverlay.Proofs.RunList.Shape

/-! # Lists of runs: what is seen through them

Laid over given elements, the runs replace the elements at the positions that they cover and leave
the others. `apply` does this by cutting the runs to the elements (`window`) and writing them one
after the other; `overlaid` says it position by position.

* `valueAt?_window`: the window gives the values of the runs inside its interval, and no others.
* `getElem?_apply`: what `apply` makes of the element at an index.
* `overlaid_write`: seen through the runs, a write is a write.
* `Canonical.apply_slice`: over a slice of elements `apply` gives the slice of `overlaid`. -/

namespace EditOverlay

theorem Run.valueAt?_mk (pos : Nat) (values : List Nat) (p : Nat) :
    (⟨pos, values⟩ : Run).valueAt? p =
      if pos ≤ p ∧ p < pos + values.length then values[p - pos]? else none := by
  unfold Run.valueAt?
  simp only
  split_ifs with h1 h2 h2
  · rfl
  · rw [List.getElem?_eq_none]
    omega
  · omega
  · rfl

namespace RunList

variable {Q : Nat → Prop} {n : Nat} {runs : RunList}

/-! ### The window -/

theorem clip?_bind_valueAt? (lo hi : Nat) (r : Run) (p : Nat) :
    (r.clip? lo hi).bind (·.valueAt? p) = if lo ≤ p ∧ p < hi then r.valueAt? p else none := by
  unfold Run.clip?
  simp only
  split_ifs with h1 h2 h2
  · rw [Option.bind_some, Run.valueAt?, Run.valueAt?]
    simp only
    by_cases hp : r.start ≤ p
    · rw [if_pos (by omega), if_pos hp]
      by_cases hstop : p < r.stop
      · rw [List.getElem?_take_of_lt (by omega), List.getElem?_drop]
        congr 1
        omega
      · have hlen : r.values.length ≤ p - r.start := by
          unfold Run.stop Run.length at hstop
          omega
        rw [List.getElem?_eq_none hlen, List.getElem?_eq_none]
        rw [List.length_take]
        omega
    · rw [if_neg (by omega), if_neg hp]
  · rw [Option.bind_some, Run.valueAt?_eq_none_iff]
    simp only [Run.stop, Run.length, List.length_take, List.length_drop]
    unfold Run.stop Run.length at h1
    omega
  · rw [Option.bind_none, eq_comm, Run.valueAt?_eq_none_iff]
    omega
  · rfl

/-- **The window gives what the runs give inside it,** and nothing outside. -/
theorem valueAt?_window (runs : RunList) (lo hi p : Nat) :
    (runs.window lo hi).valueAt? p = if lo ≤ p ∧ p < hi then runs.valueAt? p else none := by
  induction runs with
  | nil => split_ifs <;> rfl
  | cons r rest ih =>
    have hr := clip?_bind_valueAt? lo hi r p
    unfold window at ih ⊢
    cases hclip : r.clip? lo hi with
    | none =>
      rw [hclip, Option.bind_none] at hr
      rw [List.filterMap_cons_none hclip, ih, valueAt?_cons]
      split_ifs at hr ⊢
      · rw [← hr, Option.none_or]
      · rfl
    | some s =>
      rw [hclip, Option.bind_some] at hr
      rw [List.filterMap_cons_some hclip, valueAt?_cons, hr, ih, valueAt?_cons]
      split_ifs <;> rfl

theorem clip?_bounds {lo hi : Nat} {r s : Run} (h : r.clip? lo hi = some s) :
    s.values ≠ [] ∧ lo ≤ s.start ∧ s.stop ≤ hi ∧ r.start ≤ s.start ∧ s.stop ≤ r.stop := by
  unfold Run.clip? at h
  simp only at h
  split_ifs at h with hlt
  cases h
  have hlen : ((r.values.drop (max lo r.start - r.start)).take
      (min hi r.stop - max lo r.start)).length = min hi r.stop - max lo r.start := by
    unfold Run.stop Run.length at hlt ⊢
    rw [List.length_take, List.length_drop]
    omega
  have hne : ((r.values.drop (max lo r.start - r.start)).take
      (min hi r.stop - max lo r.start)) ≠ [] := by
    rw [← List.length_pos_iff, hlen]
    omega
  refine ⟨hne, le_max_left _ _, ?_, le_max_right _ _, ?_⟩
  · rw [Run.stop, Run.length, hlen]
    simp only
    omega
  · rw [Run.stop, Run.length, hlen]
    simp only
    omega

theorem bounds_of_mem_window {lo hi : Nat} {s : Run} (hs : s ∈ runs.window lo hi) :
    s.values ≠ [] ∧ lo ≤ s.start ∧ s.stop ≤ hi := by
  obtain ⟨r, -, hr⟩ := List.mem_filterMap.mp hs
  obtain ⟨hne, hlo, hhi, -, -⟩ := clip?_bounds hr
  exact ⟨hne, hlo, hhi⟩

theorem Canonical.window (h : Canonical runs) (lo hi : Nat) : Canonical (runs.window lo hi) := by
  refine ⟨fun s hs => (bounds_of_mem_window hs).1, h.apart.filterMap _ ?_⟩
  intro r r' hrr' s hs s' hs'
  obtain ⟨-, -, -, -, h1⟩ := clip?_bounds hs
  obtain ⟨-, -, -, h2, -⟩ := clip?_bounds hs'
  omega

/-! ### Laying runs over elements -/

theorem getElem?_foldl_overwrite {offset : Nat} (h : Canonical runs) (target : List Nat)
    (hin : ∀ r ∈ runs, offset ≤ r.start ∧ r.stop ≤ offset + target.length) (i : Nat) :
    (runs.foldl (fun xs r => overwrite xs (r.start - offset) r.values) target)[i]? =
      target[i]?.map fun v => (runs.valueAt? (offset + i)).getD v := by
  induction runs generalizing target with
  | nil =>
    rw [List.foldl_nil]
    exact Option.map_id'.symm
  | cons r rest ih =>
    obtain ⟨hstart, hstop⟩ := hin r List.mem_cons_self
    have hroom : r.start - offset + r.values.length ≤ target.length := by
      unfold Run.stop Run.length at hstop
      omega
    have hrest : ∀ s ∈ rest, offset ≤ s.start ∧ s.stop ≤
        offset + (overwrite target (r.start - offset) r.values).length := by
      intro s hs
      rw [length_overwrite hroom]
      exact hin s (List.mem_cons_of_mem _ hs)
    rw [List.foldl_cons, ih h.tail _ hrest, getElem?_overwrite hroom, valueAt?_cons]
    by_cases hp : r.start ≤ offset + i ∧ offset + i < r.stop
    · -- only the first run covers the position
      have hcover := Run.isSome_valueAt? hp.1 hp.2
      obtain ⟨v, hv⟩ := Option.isSome_iff_exists.mp hcover
      have hindex : r.values[i - (r.start - offset)]? = some v := by
        rw [← (Run.valueAt?_eq_some_iff.mp hv).2]
        congr 1
        omega
      have hi : i < target.length := by omega
      rw [if_pos (by unfold Run.stop Run.length at hp; omega), hindex, h.valueAt?_tail hp.2.le, hv,
        List.getElem?_eq_getElem hi]
      rfl
    · have hnone : r.valueAt? (offset + i) = none := Run.valueAt?_eq_none_iff.mpr (by omega)
      rw [if_neg (by unfold Run.stop Run.length at hp; omega), hnone, Option.none_or]

/-- **Laying runs over elements:** the first `limit` elements change where a run covers their
position. -/
theorem getElem?_apply (h : Canonical runs) (target : List Nat) (offset limit i : Nat) :
    (runs.apply target offset limit)[i]? =
      target[i]?.map fun v => if i < limit then (runs.valueAt? (offset + i)).getD v else v := by
  have hin : ∀ r ∈ runs.window offset (offset + min limit target.length),
      offset ≤ r.start ∧ r.stop ≤ offset + target.length := by
    intro r hr
    obtain ⟨-, h1, h2⟩ := bounds_of_mem_window hr
    omega
  rw [apply, getElem?_foldl_overwrite (h.window _ _) target hin, valueAt?_window]
  by_cases hi : i < target.length
  · rw [List.getElem?_eq_getElem hi]
    split_ifs with h1 h2 h2
    · rfl
    · omega
    · omega
    · rfl
  · rw [List.getElem?_eq_none (by omega)]
    rfl

theorem length_apply (h : Canonical runs) (target : List Nat) (offset limit : Nat) :
    (runs.apply target offset limit).length = target.length := by
  refine Nat.le_antisymm ?_ ?_
  · rw [← List.getElem?_eq_none_iff, getElem?_apply h, List.getElem?_eq_none (le_refl _)]
    rfl
  · rw [← List.getElem?_eq_none_iff]
    have := getElem?_apply h target offset limit (runs.apply target offset limit).length
    rw [List.getElem?_eq_none (le_refl _), eq_comm, Option.map_eq_none_iff] at this
    exact this

theorem forall_mem_apply (h : Canonical runs) (hr : ∀ r ∈ runs, r.Within Q n) {target : List Nat}
    (ht : ∀ v ∈ target, Q v) (offset limit : Nat) : ∀ v ∈ runs.apply target offset limit, Q v := by
  intro v hv
  obtain ⟨i, hi⟩ := List.mem_iff_getElem?.mp hv
  rw [getElem?_apply h, Option.map_eq_some_iff] at hi
  obtain ⟨u, hu, rfl⟩ := hi
  have hQu := ht u (List.mem_of_getElem? hu)
  split_ifs
  · cases hval : runs.valueAt? (offset + i) with
    | none => exact hQu
    | some w => exact allowed_of_valueAt? hr hval
  · exact hQu

/-! ### The elements seen through the runs -/

/-- The elements with the runs over them, position by position. -/
def overlaid (runs : RunList) (xs : List Nat) : List Nat :=
  xs.mapIdx fun p v => (runs.valueAt? p).getD v

@[simp] theorem length_overlaid (runs : RunList) (xs : List Nat) :
    (runs.overlaid xs).length = xs.length := List.length_mapIdx

@[simp] theorem overlaid_nil (xs : List Nat) : overlaid [] xs = xs := by
  refine List.ext_getElem? fun p => ?_
  rw [overlaid, List.getElem?_mapIdx]
  exact Option.map_id'

theorem getElem?_overlaid (runs : RunList) (xs : List Nat) (p : Nat) :
    (runs.overlaid xs)[p]? = xs[p]?.map fun v => (runs.valueAt? p).getD v := List.getElem?_mapIdx

theorem forall_mem_overlaid {xs : List Nat} (hr : ∀ r ∈ runs, r.Within Q n) (hxs : ∀ v ∈ xs, Q v) :
    ∀ v ∈ runs.overlaid xs, Q v := by
  intro v hv
  obtain ⟨p, hp⟩ := List.mem_iff_getElem?.mp hv
  rw [getElem?_overlaid, Option.map_eq_some_iff] at hp
  obtain ⟨u, hu, rfl⟩ := hp
  cases hvalue : runs.valueAt? p with
  | none => exact hxs u (List.mem_of_getElem? hu)
  | some v => exact allowed_of_valueAt? hr hvalue

theorem getElem?_overlaid_of_within {xs : List Nat} (h : ∀ r ∈ runs, r.Within Q xs.length)
    (p : Nat) :
    (runs.overlaid xs)[p]? = (runs.valueAt? p).or xs[p]? := by
  rw [getElem?_overlaid]
  cases hv : runs.valueAt? p with
  | none => simp
  | some v => simp [List.getElem?_eq_getElem (lt_of_valueAt? h hv)]

/-- **Seen through the runs, a write is a write.** -/
theorem overlaid_write {pos : Nat} {values xs : List Nat} (h : pos + values.length ≤ xs.length) :
    (runs.write pos values).overlaid xs = overwrite (runs.overlaid xs) pos values := by
  refine List.ext_getElem? fun p => ?_
  rw [getElem?_overlaid, getElem?_overwrite (by rwa [length_overlaid]), valueAt?_write,
    Run.valueAt?_mk]
  split_ifs with hp
  · rw [List.getElem?_eq_getElem (show p < xs.length by omega),
      List.getElem?_eq_getElem (show p - pos < values.length by omega)]
    rfl
  · rw [Option.none_or, getElem?_overlaid]

/-- The first runs over the elements, and the others over that, are all runs over the elements. -/
theorem Canonical.overlaid_take_drop (h : Canonical runs) (k : Nat) (xs : List Nat) :
    overlaid (runs.drop k) (overlaid (runs.take k) xs) = runs.overlaid xs := by
  refine List.ext_getElem? fun p => ?_
  rw [getElem?_overlaid, getElem?_overlaid, getElem?_overlaid, h.valueAt?_take_drop k,
    Option.map_map]
  congr 1
  funext v
  cases valueAt? (runs.drop k) p <;> rfl

/-- **A slice of the elements seen through the runs** is `apply` of the slice. -/
theorem Canonical.apply_slice (h : Canonical runs) (xs : List Nat) (offset stop : Nat) :
    runs.apply ((xs.take stop).drop offset) offset ((xs.take stop).drop offset).length =
      ((runs.overlaid xs).take stop).drop offset := by
  refine List.ext_getElem? fun i => ?_
  rw [getElem?_apply h, List.getElem?_drop, List.getElem?_drop]
  by_cases hi : offset + i < stop
  · rw [List.getElem?_take_of_lt hi, List.getElem?_take_of_lt hi, getElem?_overlaid]
    by_cases hlen : offset + i < xs.length
    · rw [List.getElem?_eq_getElem hlen, Option.map_some, Option.map_some, if_pos]
      rw [List.length_drop, List.length_take]
      omega
    · rw [List.getElem?_eq_none (by omega)]
      rfl
  · rw [List.getElem?_eq_none, List.getElem?_eq_none]
    · rfl
    · rw [List.length_take]
      omega
    · rw [List.length_take]
      omega

end RunList
end EditOverlay
