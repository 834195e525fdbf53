import EditOverlay.Proofs.Overlay.Invariant
import EditOverlay.Proofs.RunList.Scan

/-! # Overlays: windows

The changes inside a window, and the changes laid over the elements of a window, are those at its
positions and no others, wherever the window starts and ends: inside a run, behind the end of the
store, or behind the last word. Found by a scan in machine words they are the same, and nothing goes
wrong on the way (`window_exact`). -/

namespace EditOverlay.Overlay

open RunList

variable {o : Overlay}

theorem isChanged_iff {p : Nat} : o.isChanged p = true ↔ ∃ v, o.runs.valueAt? p = some v :=
  Option.isSome_iff_exists

/-- **The parts inside a window** contain what the changes have there, and nothing else. -/
theorem exists_mem_changesIn_iff (h : Canonical o.runs) (offset count p v : Nat) :
    (∃ r ∈ o.changesIn offset count, r.valueAt? p = some v) ↔
      offset ≤ p ∧ p < offset + count ∧ o.isChanged p = true ∧ o.runs.valueAt? p = some v := by
  have hparts : (o.changesIn offset count).valueAt? p =
      if offset ≤ p ∧ p < offset + count then o.runs.valueAt? p else none :=
    valueAt?_window o.runs offset (offset + count) p
  constructor
  · rintro ⟨r, hr, hv⟩
    have hvalue : (o.changesIn offset count).valueAt? p = some v :=
      (h.window _ _).valueAt?_of_mem hr hv
    rw [hparts] at hvalue
    split_ifs at hvalue with hp
    exact ⟨hp.1, hp.2, isChanged_iff.mpr ⟨v, hvalue⟩, hvalue⟩
  · rintro ⟨h1, h2, -, hv⟩
    rw [if_pos ⟨h1, h2⟩, hv] at hparts
    exact exists_mem_of_valueAt? hparts

/-- **The changes laid over elements:** each of the first ones that is changed gets the value that
it is changed to. -/
theorem getElem?_apply_eq (h : Canonical o.runs) {target : List Nat} (offset : Nat)
    (limit : Option Nat) {i : Nat} (hi : i < target.length) :
    (o.apply target offset limit)[i]? =
      if i < min (limit.getD target.length) target.length ∧ o.isChanged (offset + i) = true then
        o.runs.valueAt? (offset + i)
      else target[i]? := by
  unfold apply
  rw [getElem?_apply h, List.getElem?_eq_getElem hi, Option.map_some]
  by_cases hlimit : i < limit.getD target.length
  · rw [if_pos hlimit]
    cases hv : o.runs.valueAt? (offset + i) with
    | none =>
      have hnot : ¬ o.isChanged (offset + i) = true := by
        rw [isChanged_iff, hv]
        simp
      rw [if_neg fun hboth => hnot hboth.2, Option.getD_none]
    | some v =>
      have hchanged : o.isChanged (offset + i) = true := isChanged_iff.mpr ⟨v, hv⟩
      rw [if_pos ⟨by omega, hchanged⟩, Option.getD_some]
  · rw [if_neg hlimit, if_neg (by omega)]

/-- **Windows are exact.** Of an overlay that operations lead to, the parts inside a window are not
empty, lie inside it, and neither meet nor touch; together they have a value at a position exactly
if it is inside and changed, and it is the value that it is changed to. Laid over elements, the
changes replace those of the first `limit` that are changed, and leave the others and the length.
For a store whose length is a word, the scan in machine words finds these parts from every word on
and lays them, so no sum, difference, slice or interval on its way goes wrong. -/
theorem window_exact (h : Reachable (fun _ => True) o) :
    (∀ offset count : Nat,
      (∀ r ∈ o.changesIn offset count,
        r.values ≠ [] ∧ offset ≤ r.start ∧ r.stop ≤ offset + count) ∧
      (o.changesIn offset count).Pairwise (fun r s => r.stop < s.start) ∧
      ∀ p v, (∃ r ∈ o.changesIn offset count, r.valueAt? p = some v) ↔
        offset ≤ p ∧ p < offset + count ∧ o.isChanged p = true ∧ o.runs.valueAt? p = some v) ∧
    (∀ (target : List Nat) (offset : Nat) (limit : Option Nat),
      (o.apply target offset limit).length = target.length ∧
      ∀ i < target.length, (o.apply target offset limit)[i]? =
        if i < min (limit.getD target.length) target.length ∧ o.isChanged (offset + i) = true then
          o.runs.valueAt? (offset + i)
        else target[i]?) ∧
    (o.length ≤ Word.max → ∀ offset ≤ Word.max,
      (∀ count, o.runs.scan? offset count = some (o.changesIn offset count)) ∧
      ∀ (target : List Nat) (limit : Option Nat),
        o.runs.lay? target offset (limit.getD target.length) =
          some (o.apply target offset limit)) := by
  have hs : Sound (fun _ => True) o := h.sound fun _ _ => trivial
  have hcanonical := hs.canonical
  refine ⟨fun offset count => ⟨fun r hr => bounds_of_mem_window hr, (hcanonical.window _ _).apart,
    exists_mem_changesIn_iff hcanonical offset count⟩, fun target offset limit =>
    ⟨length_apply hcanonical _ _ _, fun i hi => getElem?_apply_eq hcanonical offset limit hi⟩, ?_⟩
  intro hlength offset hoffset
  have hw : ∀ r ∈ o.runs, r.stop ≤ Word.max := fun r hr => (hs.runs_within r hr).1.trans hlength
  exact ⟨hcanonical.scan?_eq hw hoffset, fun target limit =>
    hcanonical.lay?_eq hw hoffset target _⟩

/-- The same at the last words: a window that starts inside a run runs past the last word, and one
that starts before the run ends inside it. -/
theorem window_exact_last_words :
    let s : MemoryStore := MemoryStore.zeroed .w8 2
    let o := (withLimit .w8 Word.max 1).after
      [.change s (Word.max - 3) [7, 8, 9] false, .change s 1 [5] true]
    o.runs.scan? (Word.max - 2) Word.max = some (o.changesIn (Word.max - 2) Word.max) ∧
      o.changesIn (Word.max - 2) Word.max = [⟨Word.max - 2, [8, 9]⟩] ∧
      (∀ p v, (∃ r ∈ o.changesIn (Word.max - 2) Word.max, r.valueAt? p = some v) ↔
        Word.max - 2 ≤ p ∧ p < Word.max - 2 + Word.max ∧ o.isChanged p = true ∧
          o.runs.valueAt? p = some v) ∧
      o.runs.lay? [1, 2, 3] (Word.max - 4) 2 = some (o.apply [1, 2, 3] (Word.max - 4) (some 2)) ∧
      o.apply [1, 2, 3] (Word.max - 4) (some 2) = [1, 7, 3] := by
  intro s o
  have hs : Store.ReadsWithin (fun _ => True) s := s.exact.readsWithin fun _ _ => trivial
  have hreach : Reachable (fun _ => True) o := by
    refine ⟨.w8, Word.max, 1, _, ?_, rfl⟩
    simp only [List.forall_mem_cons]
    exact ⟨hs, hs, by simp⟩
  obtain ⟨hparts, -, hwords⟩ := window_exact hreach
  have hlength : o.length ≤ Word.max := by decide
  exact ⟨(hwords hlength (Word.max - 2) (by decide)).1 Word.max, by decide,
    (hparts (Word.max - 2) Word.max).2.2,
    (hwords hlength (Word.max - 4) (by decide)).2 [1, 2, 3] (some 2), by decide⟩

end EditOverlay.Overlay
