import EditOverlay.Proofs.RunList.View
import EditOverlay.Proofs.Word
import Mathlib.Data.List.Basic
import Mathlib.Data.List.Pairwise

/-! # Lists of runs: scans in machine words

The runs inside an interval are found without looking at all runs: the scan starts with the run
that covers the first position, which is the last one that does not start behind it, and stops where
runs start behind the interval. All its positions are words. `scan?` computes this with sums,
differences and slices that can go wrong, and so does `lay?` when it lays the runs over elements.

* `scan?_eq`: over runs that end within a word nothing goes wrong, and the scan gives the window.
* `lay?_eq`: nor does anything go wrong when the runs are laid over elements. -/

namespace EditOverlay

/-- The part of a run inside `[lo, hi)`, if there is any, computed in words. -/
def Run.clipWords? (lo hi : Nat) (r : Run) : Option (Option Run) := do
  let stop ← Word.add? r.start r.length
  let first := max lo r.start
  let last := min hi stop
  if first < last then
    let values ← Word.slice? r.values (← Word.sub? first r.start) (← Word.sub? last r.start)
    return some ⟨first, values⟩
  else return none

namespace RunList

/-- The run that covers a position: it can only be the last one that does not start behind it. -/
def covering? (runs : RunList) (p : Nat) : Option (Option Run) :=
  match (runs.filter (·.start ≤ p)).getLast? with
  | none => some none
  | some r => do
    let stop ← Word.add? r.start r.length
    return if p < stop then some r else none

/-- The runs that start inside `[lo, hi)`, an interval that has to be in order. -/
def startingIn? (runs : RunList) (lo hi : Nat) : Option RunList :=
  if lo ≤ hi then some (runs.filter fun r => lo ≤ r.start ∧ r.start < hi) else none

/-- The parts of the runs inside the `count` positions from `offset` on. -/
def scan? (runs : RunList) (offset count : Nat) : Option RunList :=
  if count = 0 then some []
  else do
    let stop := Word.addSaturating offset count
    let covering ← runs.covering? offset
    let first := (covering.map Run.start).getD offset
    let candidates ← runs.startingIn? first stop
    let parts ← candidates.mapM (Run.clipWords? offset stop)
    return parts.filterMap id

/-- The elements with a part of the runs copied to its place, which has to be among them. -/
def copy? (offset : Nat) (elements : List Nat) (r : Run) : Option (List Nat) := do
  let start ← Word.sub? r.start offset
  let stop ← Word.add? start r.length
  if stop ≤ elements.length then return overwrite elements start r.values else none

/-- Lays the runs over the first `limit` elements of `target`, all in words. -/
def lay? (runs : RunList) (target : List Nat) (offset limit : Nat) : Option (List Nat) := do
  let parts ← runs.scan? offset (min limit target.length)
  parts.foldlM (copy? offset) target

end RunList

/-! ### Parts of runs -/

theorem Run.clipWords?_eq {r : Run} (h : r.stop ≤ Word.max) (lo hi : Nat) :
    r.clipWords? lo hi = some (r.clip? lo hi) := by
  have hadd : Word.add? r.start r.length = some r.stop := Word.add?_of_le h
  unfold clipWords? clip?
  rw [hadd]
  simp only [Option.bind_eq_bind, Option.bind_some, Option.pure_def]
  split_ifs with hlt
  · have hfirst := Word.sub?_of_le (le_max_right lo r.start)
    have hlast : Word.sub? (min hi r.stop) r.start = some (min hi r.stop - r.start) :=
      Word.sub?_of_le (by omega)
    have hslice : Word.slice? r.values (max lo r.start - r.start) (min hi r.stop - r.start) =
        some ((r.values.drop (max lo r.start - r.start)).take
          (min hi r.stop - max lo r.start)) := by
      have hcount : min hi r.stop - r.start - (max lo r.start - r.start) =
          min hi r.stop - max lo r.start := by omega
      rw [Word.slice?_of_le (by omega) (by unfold stop length; omega), List.drop_take, hcount]
    rw [hfirst, hlast, Option.bind_some, Option.bind_some, hslice, Option.bind_some]
  · rfl

theorem Run.clip?_eq_none {r : Run} {lo hi : Nat} (h : min hi r.stop ≤ max lo r.start) :
    r.clip? lo hi = none := if_neg (by omega)

theorem Run.clip?_addSaturating {r : Run} (h : r.stop ≤ Word.max) (offset count : Nat) :
    r.clip? offset (Word.addSaturating offset count) = r.clip? offset (offset + count) := by
  have hmin : min (Word.addSaturating offset count) r.stop = min (offset + count) r.stop := by
    unfold Word.addSaturating
    omega
  unfold clip?
  rw [hmin]

namespace RunList

variable {runs : RunList} {offset count : Nat} {r r' : Run}

/-! ### The run that covers a position -/

/-- Whether a run covers a position. -/
def covers (p : Nat) (r : Run) : Bool := r.start ≤ p ∧ p < r.stop

theorem covers_iff {p : Nat} : covers p r = true ↔ r.start ≤ p ∧ p < r.stop := decide_eq_true_iff

theorem Canonical.eq_or_apart (h : Canonical runs) (hr : r ∈ runs) (hr' : r' ∈ runs) :
    r = r' ∨ r.stop < r'.start ∨ r'.stop < r.start := by
  have : Std.Symm fun r s : Run => r.stop < s.start ∨ s.stop < r.start := ⟨fun _ _ => Or.symm⟩
  have hapart : runs.Pairwise fun r s => r.stop < s.start ∨ s.stop < r.start :=
    h.apart.imp Or.inl
  by_cases heq : r = r'
  · exact Or.inl heq
  · exact Or.inr (hapart.forall hr hr' heq)

theorem Canonical.stop_lt_of_getLast? (h : Canonical runs) {p : Nat}
    (hlast : (runs.filter (·.start ≤ p)).getLast? = some r) :
    r ∈ runs ∧ r.start ≤ p ∧ ∀ s ∈ runs, s.start ≤ p → s = r ∨ s.stop < r.start := by
  obtain ⟨before, hbefore⟩ := List.getLast?_eq_some_iff.mp hlast
  have hmem : r ∈ runs.filter (·.start ≤ p) := by
    rw [hbefore]
    simp
  obtain ⟨hr, hstart⟩ := List.mem_filter.mp hmem
  refine ⟨hr, of_decide_eq_true hstart, fun s hs hsp => ?_⟩
  have hsmem : s ∈ before ++ [r] := by
    rw [← hbefore]
    exact List.mem_filter.mpr ⟨hs, decide_eq_true hsp⟩
  have hapart : (before ++ [r]).Pairwise fun r s => r.stop < s.start := by
    rw [← hbefore]
    exact h.apart.filter _
  rcases List.mem_append.mp hsmem with hs' | hs'
  · exact Or.inr ((List.pairwise_append.mp hapart).2.2 s hs' r (List.mem_singleton_self r))
  · exact Or.inl (List.mem_singleton.mp hs')

/-- **Only the last run that does not start behind a position can cover it.** -/
theorem Canonical.covering?_eq (h : Canonical runs) (hw : ∀ r ∈ runs, r.stop ≤ Word.max) (p : Nat) :
    runs.covering? p = some (runs.find? (covers p)) := by
  unfold covering?
  cases hlast : (runs.filter (·.start ≤ p)).getLast? with
  | none =>
    have hnone : runs.find? (covers p) = none := by
      refine List.find?_eq_none.mpr fun s hs hcovers => ?_
      have hbehind := List.filter_eq_nil_iff.mp (List.getLast?_eq_none_iff.mp hlast) s hs
      exact hbehind (decide_eq_true (covers_iff.mp hcovers).1)
    simp only [hnone]
  | some r =>
    obtain ⟨hr, hstart, hothers⟩ := h.stop_lt_of_getLast? hlast
    have hadd : Word.add? r.start r.length = some r.stop := Word.add?_of_le (hw r hr)
    have honly : ∀ s ∈ runs, covers p s = true → s = r := by
      intro s hs hcovers
      obtain ⟨hsp, hps⟩ := covers_iff.mp hcovers
      rcases hothers s hs hsp with heq | hbefore
      · exact heq
      · omega
    simp only [hadd, Option.bind_eq_bind, Option.bind_some, Option.pure_def]
    split_ifs with hp
    · have hsome : (runs.find? (covers p)).isSome :=
        List.find?_isSome.mpr ⟨r, hr, covers_iff.mpr ⟨hstart, hp⟩⟩
      obtain ⟨s, hs⟩ := Option.isSome_iff_exists.mp hsome
      rw [hs, honly s (List.mem_of_find?_eq_some hs) (List.find?_some hs)]
    · have hnone : runs.find? (covers p) = none := by
        refine List.find?_eq_none.mpr fun s hs hcovers => ?_
        have hps := (covers_iff.mp hcovers).2
        rw [honly s hs hcovers] at hps
        exact hp hps
      rw [hnone]

/-! ### The scan -/

/-- Where a scan from `offset` on starts. -/
def scanStart (runs : RunList) (offset : Nat) : Nat :=
  ((runs.find? (covers offset)).map Run.start).getD offset

theorem scanStart_le (runs : RunList) (offset : Nat) : runs.scanStart offset ≤ offset := by
  unfold scanStart
  cases hfind : runs.find? (covers offset) with
  | none => exact le_refl _
  | some r => exact (covers_iff.mp (List.find?_some hfind)).1

/-- **The scan skips nothing:** what starts before it also stops before it. -/
theorem Canonical.stop_le_of_lt_scanStart (h : Canonical runs) (hr : r ∈ runs)
    (hlt : r.start < runs.scanStart offset) : r.stop ≤ offset := by
  unfold scanStart at hlt
  cases hfind : runs.find? (covers offset) with
  | none =>
    rw [hfind] at hlt
    have hnot := List.find?_eq_none.mp hfind r hr
    rw [covers_iff] at hnot
    simp only [Option.map_none, Option.getD_none] at hlt
    omega
  | some s =>
    rw [hfind] at hlt
    have hs := covers_iff.mp (List.find?_some hfind)
    have hstart := r.start_le_stop
    simp only [Option.map_some, Option.getD_some] at hlt
    rcases h.eq_or_apart hr (List.mem_of_find?_eq_some hfind) with heq | hbefore | hbehind
    · rw [heq] at hlt
      omega
    · omega
    · have hstop := s.start_le_stop
      omega

theorem window_self (runs : RunList) (offset : Nat) : runs.window offset offset = [] :=
  List.filterMap_eq_nil_iff.mpr fun _ _ => Run.clip?_eq_none (by omega)

theorem mapM_eq_some_map {α β : Type} {f : α → Option β} {g : α → β} {xs : List α}
    (h : ∀ x ∈ xs, f x = some (g x)) : xs.mapM f = some (xs.map g) := by
  induction xs with
  | nil => rfl
  | cons x xs ih =>
    rw [List.mapM_cons, h x List.mem_cons_self, ih fun y hy => h y (List.mem_cons_of_mem x hy)]
    rfl

/-- **The scan gives the window,** and nothing goes wrong on its way. -/
theorem Canonical.scan?_eq (h : Canonical runs) (hw : ∀ r ∈ runs, r.stop ≤ Word.max)
    (hoffset : offset ≤ Word.max) (count : Nat) :
    runs.scan? offset count = some (runs.window offset (offset + count)) := by
  unfold scan?
  split_ifs with hcount
  · rw [hcount, Nat.add_zero, window_self]
  have hstop : offset ≤ Word.addSaturating offset count := Word.le_addSaturating hoffset
  have hstarting : runs.startingIn? (runs.scanStart offset) (Word.addSaturating offset count) =
      some (runs.filter fun r =>
        runs.scanStart offset ≤ r.start ∧ r.start < Word.addSaturating offset count) :=
    if_pos ((runs.scanStart_le offset).trans hstop)
  have hparts : ∀ candidates : RunList, (∀ r ∈ candidates, r ∈ runs) →
      candidates.mapM (Run.clipWords? offset (Word.addSaturating offset count)) =
        some (candidates.map (Run.clip? offset (Word.addSaturating offset count))) :=
    fun _ hmem => mapM_eq_some_map fun r hr => r.clipWords?_eq (hw r (hmem r hr)) _ _
  rw [h.covering?_eq hw]
  change (runs.startingIn? (runs.scanStart offset) (Word.addSaturating offset count)).bind _ = _
  rw [hstarting]
  simp only [Option.bind_eq_bind, Option.bind_some, Option.pure_def]
  rw [hparts _ fun r hr => (List.mem_filter.mp hr).1, Option.bind_some, List.filterMap_map,
    List.filterMap_filter, RunList.window]
  congr 1
  refine List.filterMap_congr fun r hr => ?_
  have hclip := r.clip?_addSaturating (hw r hr) offset count
  have hstart := r.start_le_stop
  split_ifs with hin
  · exact hclip
  · -- what the scan leaves out has no part inside the interval
    rw [← hclip]
    by_cases hlt : r.start < runs.scanStart offset
    · have hbefore := h.stop_le_of_lt_scanStart hr hlt
      exact (Run.clip?_eq_none (by omega)).symm
    · have hbehind : Word.addSaturating offset count ≤ r.start := by
        simp only [decide_eq_true_eq] at hin
        omega
      exact (Run.clip?_eq_none (by omega)).symm

/-! ### Laying parts over elements -/

theorem copy?_eq {elements : List Nat} (h1 : offset ≤ r.start)
    (h2 : r.stop ≤ offset + elements.length) (hw : r.stop ≤ Word.max) :
    copy? offset elements r = some (overwrite elements (r.start - offset) r.values) := by
  have hstop : r.start - offset + r.length ≤ elements.length := by
    unfold Run.stop at h2
    omega
  have hword : r.start - offset + r.length ≤ Word.max := by
    unfold Run.stop at hw
    omega
  unfold copy?
  rw [Word.sub?_of_le h1]
  change (Word.add? _ _).bind _ = _
  rw [Word.add?_of_le hword]
  exact if_pos hstop

theorem foldlM_copy?_eq {parts : RunList} {target : List Nat}
    (hin : ∀ r ∈ parts, offset ≤ r.start ∧ r.stop ≤ offset + target.length)
    (hw : ∀ r ∈ parts, r.stop ≤ Word.max) :
    parts.foldlM (copy? offset) target =
      some (parts.foldl (fun xs r => overwrite xs (r.start - offset) r.values) target) := by
  induction parts generalizing target with
  | nil => rfl
  | cons r rest ih =>
    rw [List.forall_mem_cons] at hin hw
    have hlength : (overwrite target (r.start - offset) r.values).length = target.length := by
      have hstop := hin.1.2
      unfold Run.stop Run.length at hstop
      exact length_overwrite (by omega)
    rw [List.foldlM_cons, copy?_eq hin.1.1 hin.1.2 hw.1, List.foldl_cons]
    exact ih (by rw [hlength]; exact hin.2) hw.2

theorem Canonical.lay?_eq (h : Canonical runs) (hw : ∀ r ∈ runs, r.stop ≤ Word.max)
    (hoffset : offset ≤ Word.max) (target : List Nat) (limit : Nat) :
    runs.lay? target offset limit = some (runs.apply target offset limit) := by
  have hin : ∀ r ∈ runs.window offset (offset + min limit target.length),
      offset ≤ r.start ∧ r.stop ≤ offset + target.length := by
    intro r hr
    obtain ⟨-, h1, h2⟩ := bounds_of_mem_window hr
    omega
  have hwindow : ∀ r ∈ runs.window offset (offset + min limit target.length),
      r.stop ≤ Word.max := by
    intro s hs
    obtain ⟨r, hr, hclip⟩ := List.mem_filterMap.mp hs
    obtain ⟨-, -, -, -, hstop⟩ := clip?_bounds hclip
    exact hstop.trans (hw r hr)
  unfold lay?
  rw [h.scan?_eq hw hoffset]
  exact foldlM_copy?_eq hin hwindow

end RunList
end EditOverlay
