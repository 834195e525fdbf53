import EditOverlay.Proofs.Overlay.Change
import EditOverlay.Proofs.RunList.Blocks
import EditOverlay.Proofs.RunList.Unique
import EditOverlay.Proofs.Store.Writes

/-! # Overlays: the order of changes

The runs of an overlay depend on the values that they give and on nothing else, so not on the way in
which the changes were made. Changes of disjoint ranges may be made in either order
(`merge_merge_comm`), and a change that another one covers may be left out
(`merge_merge_of_subset`). A commit looks at the runs only (`commit_withHistory`), so it makes the
same writes in all these cases. -/

namespace EditOverlay.Overlay

open RunList

variable {σ : Type} [Store σ] {o o' : Overlay} {a b : Run}

/-! ### Merging in another order -/

theorem canonical_merge (h : Canonical o.runs) (pos : Nat) (values : List Nat) :
    Canonical (o.merge pos values).runs := by
  by_cases hne : values = []
  · rw [hne, merge_nil]
    exact h
  · rw [merge_of_ne_nil o pos hne]
    exact h.write hne

/-- **Blocks without a common position are merged in either order.** -/
theorem merge_merge_comm (h : Canonical o.runs) (hdisjoint : Disjoint a.positions b.positions) :
    ((o.merge a.start a.values).merge b.start b.values).runs =
      ((o.merge b.start b.values).merge a.start a.values).runs := by
  refine Canonical.ext (canonical_merge (canonical_merge h _ _) _ _)
    (canonical_merge (canonical_merge h _ _) _ _) fun p => ?_
  rw [valueAt?_merge, valueAt?_merge, valueAt?_merge, valueAt?_merge]
  have hor : a.valueAt? p = none ∨ b.valueAt? p = none := by
    by_contra! hboth
    have ha : p ∈ a.positions := Run.mem_positions.mpr (Option.isSome_iff_ne_none.mpr hboth.1)
    have hb : p ∈ b.positions := Run.mem_positions.mpr (Option.isSome_iff_ne_none.mpr hboth.2)
    exact Finset.disjoint_left.mp hdisjoint ha hb
  change (b.valueAt? p).or ((a.valueAt? p).or _) = (a.valueAt? p).or ((b.valueAt? p).or _)
  rcases hor with ha | hb
  · rw [ha, Option.none_or, Option.none_or]
  · rw [hb, Option.none_or, Option.none_or]

/-- **A block that is covered by the next one leaves nothing.** -/
theorem merge_merge_of_subset (h : Canonical o.runs) (hsubset : a.positions ⊆ b.positions) :
    ((o.merge a.start a.values).merge b.start b.values).runs =
      (o.merge b.start b.values).runs := by
  refine Canonical.ext (canonical_merge (canonical_merge h _ _) _ _) (canonical_merge h _ _)
    fun p => ?_
  rw [valueAt?_merge, valueAt?_merge, valueAt?_merge]
  change (b.valueAt? p).or ((a.valueAt? p).or _) = (b.valueAt? p).or _
  cases hb : b.valueAt? p with
  | some v => rfl
  | none =>
    have ha : a.valueAt? p = none := by
      by_contra hsome
      have hmem := hsubset (Run.mem_positions.mpr (Option.isSome_iff_ne_none.mpr hsome))
      rw [Run.mem_positions, hb] at hmem
      cases hmem
    rw [ha, Option.none_or]

/-! ### The history does not matter -/

/-- The overlay with another history. -/
def withHistory (o : Overlay) (k : History) : Overlay := { o with history := k }

theorem merge_withHistory (o : Overlay) (k : History) (pos : Nat) (values : List Nat) :
    (o.withHistory k).merge pos values = (o.merge pos values).withHistory k := by
  unfold merge
  split_ifs <;> rfl

theorem requeue_withHistory (o : Overlay) (k : History) (pos : Nat) (values : List Nat) :
    (o.withHistory k).requeue pos values = (o.requeue pos values).map (·.withHistory k) := by
  unfold requeue
  rw [merge_withHistory]
  change (o.validate pos values >>= _) = _
  cases o.validate pos values <;> rfl

theorem popFirst_withHistory (o : Overlay) (k : History) :
    (o.withHistory k).popFirst? = o.popFirst?.map fun (r, o') => (r, o'.withHistory k) := by
  unfold popFirst? withHistory
  cases o.runs <;> rfl

theorem commitRuns_withHistory (o : Overlay) (k : History) (s : σ) (written : SaveReport)
    (runs : RunList) :
    (o.withHistory k).commitRuns s written runs =
      ⟨(o.commitRuns s written runs).overlay.withHistory k, (o.commitRuns s written runs).store,
        (o.commitRuns s written runs).result⟩ := by
  induction runs generalizing s written with
  | nil => rfl
  | cons r rest ih =>
    rw [commitRuns, commitRuns]
    rcases Store.write s r.start r.values with ⟨s', e | u⟩
    · have hrequeue : Overlay.requeue { o.withHistory k with runs := rest } r.start r.values =
          (Overlay.requeue { o with runs := rest } r.start r.values).map (·.withHistory k) :=
        requeue_withHistory { o with runs := rest } k r.start r.values
      simp only [hrequeue]
      cases Overlay.requeue { o with runs := rest } r.start r.values <;> rfl
    · exact ih s' _

theorem commit_withHistory (o : Overlay) (k : History) (s : σ) :
    (o.withHistory k).commit s =
      ⟨(o.commit s).overlay.withHistory k, (o.commit s).store, (o.commit s).result⟩ := by
  by_cases hw : Store.width s = o.width
  · have hcommit : (o.withHistory k).commit s = (o.withHistory k).commitRuns s ⟨0, 0⟩ o.runs :=
      commit_of_width_eq hw
    rw [hcommit, commit_of_width_eq hw, commitRuns_withHistory]
  · have hcommit : (o.withHistory k).commit s =
        ⟨o.withHistory k, s, .error (.widthMismatch o.width.bits (Store.width s).bits)⟩ :=
      commit_of_width_ne hw
    rw [hcommit, commit_of_width_ne hw]

theorem commit_history (o : Overlay) (s : σ) : (o.commit s).overlay.history = o.history :=
  congrArg (·.overlay.history) (o.commit_withHistory o.history s)

theorem change_withHistory_of_error {s : σ} {pos : Nat} {values : List Nat} {record : Bool}
    {e : EditError} (h : o.change s pos values record = .error e) (k : History) :
    (o.withHistory k).change s pos values record = .error e := by
  rw [change_eq_error_iff] at h ⊢
  exact h

/-- **A change looks at the history only to put an entry on it,** and it is the same entry on any
history. -/
theorem change_withHistory_of_ok {s : σ} {pos : Nat} {values : List Nat} {record : Bool}
    (h : o.change s pos values record = .ok o') (k : History) :
    o'.history = o.history ∧
        (o.withHistory k).change s pos values record = .ok (o'.withHistory k) ∨
      ∃ e, o'.history = o.history.push e ∧
        (o.withHistory k).change s pos values record = .ok (o'.withHistory (k.push e)) := by
  obtain ⟨hw, hb, ⟨hunwanted, rfl⟩ | ⟨hne, hrecord, previous, hprevious, rfl⟩⟩ := change_eq_ok h
  · refine Or.inl ⟨merge_history _ _ _, ?_⟩
    have hnot : ¬(record = true ∧ values ≠ []) := by
      rintro ⟨hrecord, hne⟩
      rcases hunwanted with hnil | hfalse
      · exact hne hnil
      · rw [hrecord] at hfalse
        cases hfalse
    rw [change_of_valid (o := o.withHistory k) hw hb, if_neg hnot, merge_withHistory]
  · obtain ⟨-, -, elements, hread, rfl⟩ := values_eq_ok hprevious
    refine Or.inr ⟨⟨pos, o.apply elements pos none⟩, merge_history _ _ _, ?_⟩
    rw [change_of_valid (o := o.withHistory k) hw hb, if_pos ⟨hrecord, hne⟩, hread]
    refine congrArg Except.ok ?_
    rw [← merge_withHistory]
    rfl

/-! ### All together -/

theorem runs_merge_congr (h : o.runs = o'.runs) (pos : Nat) (values : List Nat) :
    (o.merge pos values).runs = (o'.merge pos values).runs := by
  unfold merge
  split_ifs
  · exact h
  · rw [h]

theorem runs_change {s : σ} {pos : Nat} {values : List Nat} {record : Bool}
    (h : o.change s pos values record = .ok o') : o'.runs = (o.merge pos values).runs := by
  obtain ⟨-, -, ⟨-, rfl⟩ | ⟨-, -, previous, -, rfl⟩⟩ := change_eq_ok h
  · rfl
  · have hpushed : (o.withHistory (o.history.push ⟨pos, previous⟩)).runs = o.runs := rfl
    exact runs_merge_congr hpushed pos values

theorem exists_change_of_change {s : σ} {record record' : Bool}
    (ha : ∃ oa, o.change s a.start a.values record = .ok oa)
    (hb : ∃ ob, o.change s b.start b.values record' = .ok ob) :
    ∃ oa oab, o.change s a.start a.values record = .ok oa ∧
      oa.change s b.start b.values record' = .ok oab ∧
      oab.runs = ((o.merge a.start a.values).merge b.start b.values).runs := by
  obtain ⟨oa, hoa⟩ := ha
  obtain ⟨hwidth, hlength⟩ := frame_change hoa
  rw [exists_change_iff, ← hwidth, ← hlength, ← exists_change_iff] at hb
  obtain ⟨oab, hoab⟩ := hb
  refine ⟨oa, oab, hoa, hoab, ?_⟩
  rw [runs_change hoab]
  exact runs_merge_congr (runs_change hoa) b.start b.values

/-- **The same values, the same runs.** Two overlays of the same width and length, wherever
operations have led them, that give the same value at every position or none have the same runs; so
their commits make the same attempts to write, with the same result, and leave the same runs. After
all valid changes of `a` and `b` the runs are the same in either order if the ranges have no
position in common, and those of `b` alone if its range contains that of `a`. -/
theorem runs_eq_of_same_values (h : Reachable (fun _ => True) o)
    (h' : Reachable (fun _ => True) o') (hwidth : o.width = o'.width)
    (hlength : o.length = o'.length)
    (hsame : ∀ p < o.length, o.runs.valueAt? p = o'.runs.valueAt? p) :
    o.runs = o'.runs ∧
      (∀ {σ : Type} [Store σ] (s : σ),
        (o.commit (⟨s, []⟩ : Journal σ)).store = (o'.commit (⟨s, []⟩ : Journal σ)).store ∧
          (o.commit s).store = (o'.commit s).store ∧ (o.commit s).result = (o'.commit s).result ∧
          (o.commit s).overlay.runs = (o'.commit s).overlay.runs) ∧
      ∀ {σ : Type} [Store σ] (s : σ) (a b : Run) (recordA recordB : Bool),
        Store.width s = o.width → a.Within o.width.Fits o.length → b.Within o.width.Fits o.length →
        (recordA = true → a.values ≠ [] → ∃ xs, Store.read s a.start a.length = .ok xs) →
        (recordB = true → b.values ≠ [] → ∃ xs, Store.read s b.start b.length = .ok xs) →
        ∃ oa oab ob oba, o.change s a.start a.values recordA = .ok oa ∧
          oa.change s b.start b.values recordB = .ok oab ∧
          o.change s b.start b.values recordB = .ok ob ∧
          ob.change s a.start a.values recordA = .ok oba ∧
          (Disjoint a.positions b.positions → oab.runs = oba.runs) ∧
          (a.positions ⊆ b.positions → oab.runs = ob.runs) := by
  have hs := h.sound fun _ _ => trivial
  have hs' := h'.sound fun _ _ => trivial
  have hruns : o.runs = o'.runs := by
    refine hs.canonical.ext hs'.canonical fun p => ?_
    by_cases hp : p < o.length
    · exact hsame p hp
    · -- behind the end neither gives a value
      have hnone : ∀ {x : Overlay}, Sound (fun _ => True) x → x.length ≤ p →
          x.runs.valueAt? p = none := fun hx hle =>
        Option.eq_none_iff_forall_ne_some.mpr fun v hv => by
          have := lt_of_valueAt? hx.runs_within hv
          omega
      rw [hnone hs (by omega), hnone hs' (by omega)]
  have hhistory : o = o'.withHistory o.history := by
    cases o
    cases o'
    simp_all [withHistory]
  refine ⟨hruns, fun s => ?_, fun s a b recordA recordB hw ha hb hreadA hreadB => ?_⟩
  · rw [hhistory, commit_withHistory, commit_withHistory]
    exact ⟨rfl, rfl, rfl, rfl⟩
  · have hchangeA := exists_change_iff.mpr ⟨hw, ha, hreadA⟩
    have hchangeB := exists_change_iff.mpr ⟨hw, hb, hreadB⟩
    obtain ⟨oa, oab, hoa, hoab, hrunsab⟩ := exists_change_of_change hchangeA hchangeB
    obtain ⟨ob, oba, hob, hoba, hrunsba⟩ := exists_change_of_change hchangeB hchangeA
    refine ⟨oa, oab, ob, oba, hoa, hoab, hob, hoba, fun hdisjoint => ?_, fun hsubset => ?_⟩
    · rw [hrunsab, hrunsba, merge_merge_comm hs.canonical hdisjoint]
    · rw [hrunsab, runs_change hob, merge_merge_of_subset hs.canonical hsubset]

/-- Three changes of which the last one closes the gap, and two of which the second one covers the
first, have the same runs. Changes that touch them on both sides may be made in either order. -/
theorem runs_eq_of_same_values_bridged :
    let s : MemoryStore := MemoryStore.zeroed .w8 9
    let o := (withLimit .w8 9 4).after
      [.change s 2 [1] true, .change s 4 [3] true, .change s 3 [2] true]
    let o' := (withLimit .w8 9 4).after [.change s 2 [9] false, .change s 2 [1, 2, 3] false]
    o.history ≠ o'.history ∧ o.runs = o'.runs ∧
      (o.commit (⟨s, []⟩ : Journal MemoryStore)).store =
        (o'.commit (⟨s, []⟩ : Journal MemoryStore)).store ∧
      ∃ oa oab ob oba, o.change s 0 [7, 8] true = .ok oa ∧ oa.change s 5 [6] true = .ok oab ∧
        o.change s 5 [6] true = .ok ob ∧ ob.change s 0 [7, 8] true = .ok oba ∧
        oab.runs = oba.runs := by
  intro s o o'
  have hs : Store.ReadsWithin (fun _ => True) s := s.exact.readsWithin fun _ _ => trivial
  have hreach : Reachable (fun _ => True) o := by
    refine ⟨.w8, 9, 4, _, ?_, rfl⟩
    simp only [List.forall_mem_cons]
    exact ⟨hs, hs, hs, by simp⟩
  have hreach' : Reachable (fun _ => True) o' := by
    refine ⟨.w8, 9, 4, _, ?_, rfl⟩
    simp only [List.forall_mem_cons]
    exact ⟨hs, hs, by simp⟩
  obtain ⟨hruns, hcommit, horder⟩ :=
    runs_eq_of_same_values hreach hreach' (by decide) (by decide) (by decide)
  obtain ⟨oa, oab, ob, oba, hoa, hoab, hob, hoba, hcomm, -⟩ :=
    horder s ⟨0, [7, 8]⟩ ⟨5, [6]⟩ true true (by decide) (by decide) (by decide)
      (fun _ _ => ⟨[0, 0], by decide⟩) (fun _ _ => ⟨[0], by decide⟩)
  exact ⟨by decide, hruns, (hcommit s).1, oa, oab, ob, oba, hoa, hoab, hob, hoba,
    hcomm (by decide)⟩

end EditOverlay.Overlay
