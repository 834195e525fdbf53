import EditOverlay.Proofs.Codec.Patch
import EditOverlay.Proofs.Editor.Snapshots
import EditOverlay.Proofs.RunList.Blocks
import Mathlib.Logic.Function.Iterate

/-! # Editors: edits, and undos after them

An editor takes a list of edits, and then undoes some of them. With a limit `l` for the undo stack,
`u` undos after `n` edits leave the first `n - min u (min l n)` edits
(`Snapshots.array_undo_changeAll` for snapshots, `undoMany_changeAll` for editors). What stays
changed is every position that some edit covers, undone or not: an undo writes the old values back,
it does not take a change away. -/

namespace EditOverlay

/-! ### Snapshots -/

namespace Snapshots

variable {m : Snapshots} {edits : List Run}

/-- The snapshots after edits, in their order. -/
def changeAll (m : Snapshots) (edits : List Run) : Snapshots :=
  edits.foldl (fun m r => m.change r.start r.values) m

/-- The arrays before the edits, the newest first. -/
def past (xs : List Nat) : List Run → List (List Nat)
  | [] => []
  | r :: edits => past (overwrite xs r.start r.values) edits ++ [xs]

theorem length_past (xs : List Nat) (edits : List Run) : (past xs edits).length = edits.length := by
  induction edits generalizing xs with
  | nil => rfl
  | cons r edits ih => simp [past, ih]

theorem getElem?_past {i : Nat} (xs : List Nat) (h : i < edits.length) :
    (past xs edits)[i]? = some (overwriteAll xs (edits.take (edits.length - 1 - i))) := by
  induction edits generalizing xs with
  | nil => cases h
  | cons r edits ih =>
    rw [List.length_cons] at h
    rw [past, List.length_cons, Nat.add_sub_cancel]
    by_cases hi : i < edits.length
    · have htake : (r :: edits).take (edits.length - i) =
          r :: edits.take (edits.length - 1 - i) := by
        rw [show edits.length - i = edits.length - 1 - i + 1 by omega, List.take_succ_cons]
      rw [List.getElem?_append_left (by rwa [length_past]), ih _ hi, htake]
      rfl
    · have hlast : i = edits.length := by omega
      subst hlast
      rw [List.getElem?_append_right (by rw [length_past]), length_past, Nat.sub_self,
        List.take_zero]
      rfl

/-- The edits are made, and what was there before them is saved as far as the limit goes. -/
theorem changeAll_eq {older : List (List Nat)} (h : m.saved = older.take m.limit)
    (edits : List Run) :
    m.changeAll edits = ⟨overwriteAll m.array edits,
      (past m.array edits ++ older).take m.limit, m.limit⟩ := by
  induction edits generalizing m older with
  | nil =>
    rw [past, List.nil_append, ← h]
    rfl
  | cons r edits ih =>
    have hsaved : (m.change r.start r.values).saved = (m.array :: older).take m.limit := by
      change (m.array :: m.saved).take m.limit = _
      rw [h]
      cases m.limit with
      | zero => rfl
      | succ n =>
        rw [List.take_succ_cons, List.take_succ_cons, List.take_take,
          Nat.min_eq_left (Nat.le_succ n)]
    have hrest := ih (m := m.change r.start r.values) hsaved
    rw [past, List.append_assoc, List.singleton_append]
    exact hrest

theorem array_undo_iterate (m : Snapshots) (u : Nat) :
    (m.array :: m.saved)[min u m.saved.length]? = some (undo^[u] m).array := by
  induction u generalizing m with
  | zero => rw [Nat.zero_min]; rfl
  | succ u ih =>
    rw [Function.iterate_succ_apply, ← ih]
    cases hsaved : m.saved with
    | nil => rw [undo_of_saved_eq_nil hsaved, hsaved, List.length_nil, Nat.min_zero, Nat.min_zero]
    | cons xs rest =>
      rw [undo_of_saved_eq_cons hsaved, List.length_cons, Nat.succ_min_succ]
      rfl

/-- **Undos after edits** leave the first edits, up to what the limit has kept. -/
theorem array_undo_changeAll (xs : List Nat) (limit : Nat) (edits : List Run) (u : Nat) :
    (undo^[u] (changeAll ⟨xs, [], limit⟩ edits)).array =
      overwriteAll xs (edits.take (edits.length - min u (min limit edits.length))) := by
  have harray := array_undo_iterate (changeAll ⟨xs, [], limit⟩ edits) u
  have hmade : changeAll ⟨xs, [], limit⟩ edits =
      ⟨overwriteAll xs edits, (past xs edits ++ []).take limit, limit⟩ :=
    changeAll_eq (m := ⟨xs, [], limit⟩) List.take_nil.symm edits
  rw [hmade, List.append_nil] at harray ⊢
  simp only [List.length_take, length_past] at harray
  refine Option.some.inj (harray.symm.trans ?_)
  rcases hk : min u (min limit edits.length) with _ | k
  · rw [Nat.sub_zero, List.take_length]
    rfl
  · rw [List.getElem?_cons_succ, List.getElem?_take_of_lt (by omega),
      getElem?_past xs (by omega), Nat.sub_sub, Nat.add_comm 1 k]

end Snapshots

theorem Overlay.positions_merge (o : Overlay) (pos : Nat) (values : List Nat) :
    (o.merge pos values).runs.positions = o.runs.positions ∪ Run.positions ⟨pos, values⟩ := by
  ext p
  rw [RunList.mem_positions, valueAt?_merge, Option.isSome_or, Bool.or_eq_true, Finset.mem_union,
    Run.mem_positions, RunList.mem_positions, or_comm]

/-! ### Which changes succeed -/

namespace Editor

open RunList

variable {σ : Type} [Store σ] {sound : σ → Prop} {contents : σ → List Nat} {e e' : Editor σ}
  {m : Snapshots} {edits : List Run}

theorem Sound.exists_change_iff (hlaw : Store.Lawful sound contents) (h : Sound sound contents e)
    (r : Run) : (∃ e', e.change r.start r.values = .ok e') ↔
      r.Within e.overlay.width.Fits e.overlay.length := by
  constructor
  · rintro ⟨e', hchange⟩
    obtain ⟨o, ho, -⟩ := change_eq_ok_iff.mp hchange
    exact (Overlay.change_eq_ok ho).2.1
  · intro hr
    have hslice : e.overlay.values e.store r.start r.values.length = .ok _ := h.values_eq hlaw hr.1
    have hvalid := Overlay.validate_eq_ok_iff.mpr hr
    have ho : ∃ o, e.overlay.change e.store r.start r.values true = .ok o := by
      unfold Overlay.change
      rw [Width.ensureSame_eq_ok_iff.mpr h.width_eq.symm, hvalid, hslice]
      cases r.values.isEmpty with
      | true => exact ⟨_, rfl⟩
      | false => exact ⟨_, rfl⟩
    obtain ⟨o, ho⟩ := ho
    exact ⟨_, change_eq_ok_iff.mpr ⟨o, ho, rfl⟩⟩

/-- The editor after edits in their order, all of which have to succeed. -/
def changeAll (e : Editor σ) (edits : List Run) : Except EditError (Editor σ) :=
  edits.foldlM (fun e r => e.change r.start r.values) e

theorem changeAll_cons_eq_ok_iff {r : Run} : e.changeAll (r :: edits) = .ok e' ↔
    ∃ next, e.change r.start r.values = .ok next ∧ next.changeAll edits = .ok e' := by
  rw [changeAll, List.foldlM_cons, bind_eq_ok]
  rfl

theorem Sound.of_change (hlaw : Store.Lawful sound contents) (h : Sound sound contents e)
    {pos : Nat} {values : List Nat} (hchange : e.change pos values = .ok e') :
    Sound sound contents e' ∧ e'.store = e.store ∧ e'.overlay.width = e.overlay.width ∧
      e'.overlay.length = e.overlay.length := by
  have hrun : (Operation.change pos values).run e = e' := by
    simp only [Operation.run, hchange]
  have hframe := h.frame_run hlaw (.change pos values)
  have hstore : ((Operation.change pos values).run e).store = e.store :=
    store_run e fun h => by cases h
  rw [hrun] at hframe hstore
  exact ⟨hrun ▸ h.run hlaw (.change pos values), hstore, hframe⟩

theorem Sound.exists_changeAll_iff (hlaw : Store.Lawful sound contents)
    (h : Sound sound contents e) : (∃ e', e.changeAll edits = .ok e') ↔
      ∀ r ∈ edits, r.Within e.overlay.width.Fits e.overlay.length := by
  induction edits generalizing e with
  | nil => exact ⟨fun _ r hr => (List.not_mem_nil hr).elim, fun _ => ⟨e, rfl⟩⟩
  | cons r edits ih =>
    rw [List.forall_mem_cons, ← h.exists_change_iff hlaw]
    constructor
    · rintro ⟨e', hall⟩
      obtain ⟨next, hchange, hothers⟩ := changeAll_cons_eq_ok_iff.mp hall
      obtain ⟨hnext, -, hwidth, hlength⟩ := h.of_change hlaw hchange
      rw [← hwidth, ← hlength, ← ih hnext]
      exact ⟨⟨next, hchange⟩, e', hothers⟩
    · rintro ⟨⟨next, hchange⟩, hvalid⟩
      obtain ⟨hnext, -, hwidth, hlength⟩ := h.of_change hlaw hchange
      rw [← hwidth, ← hlength, ← ih hnext] at hvalid
      obtain ⟨e', hothers⟩ := hvalid
      exact ⟨e', changeAll_cons_eq_ok_iff.mpr ⟨next, hchange, hothers⟩⟩

/-! ### What edits and undos leave -/

/-- The editor of the store `s` before any save. Its snapshots are `m`, and `touched` are the
positions that were changed, undone or not. -/
structure Traces (sound : σ → Prop) (contents : σ → List Nat) (s : σ) (touched : Finset ℕ)
    (e : Editor σ) (m : Snapshots) : Prop extends Mirrors sound contents e m where
  store_eq : e.store = s
  positions_eq : e.overlay.runs.positions = touched
  undo_subset : ∀ u ∈ e.overlay.history.entries, u.toRun.positions ⊆ touched

namespace Traces

variable {s : σ} {touched : Finset ℕ}

theorem withLimit (hlaw : Store.Lawful sound contents) (hs : sound s) (limit : Nat) :
    Traces sound contents s ∅ (Editor.withLimit s limit) ⟨contents s, [], limit⟩ :=
  ⟨Mirrors.withLimit hlaw hs limit, rfl, rfl, fun _ hu => (List.not_mem_nil hu).elim⟩

theorem change (hlaw : Store.Lawful sound contents) (h : Traces sound contents s touched e m)
    {r : Run} (hne : r.values ≠ []) (hchange : e.change r.start r.values = .ok e') :
    Traces sound contents s (touched ∪ r.positions) e' (m.change r.start r.values) := by
  obtain ⟨hsound, hstore, -⟩ := h.of_change hlaw hchange
  have hmirrors := h.toMirrors.change hlaw hchange hsound
  rw [if_neg hne] at hmirrors
  refine ⟨hmirrors, hstore.trans h.store_eq, ?_, fun u hu => ?_⟩
  · obtain ⟨o, ho, rfl⟩ := change_eq_ok_iff.mp hchange
    obtain ⟨previous, -, rfl⟩ := Overlay.recorded_eq_ok ho hne
    rw [Overlay.positions_merge, h.positions_eq]
  · obtain ⟨hnil, -⟩ | ⟨-, hrange, -, hhistory⟩ := h.change_ok hlaw hchange
    · exact absurd hnil hne
    rw [hhistory] at hu
    rcases History.mem_push hu with rfl | hu
    · -- the entry keeps as many values as are written
      refine Finset.subset_union_right.trans' (Finset.Ico_subset_Ico_right ?_)
      simp only [UndoEntry.toRun, Run.stop, Run.length, List.length_drop, List.length_take]
      omega
    · exact (h.undo_subset u hu).trans Finset.subset_union_left

theorem undo (hlaw : Store.Lawful sound contents) (h : Traces sound contents s touched e m) :
    Traces sound contents s touched e.undo.2 m.undo := by
  refine ⟨h.toMirrors.undo (h.run hlaw .undo), h.store_eq, ?_, fun u hu => ?_⟩
  · cases hentries : e.overlay.history.entries with
    | nil => rw [undo_of_entries_eq_nil hentries, h.positions_eq]
    | cons u rest =>
      have hold : u.toRun.positions ⊆ touched :=
        h.undo_subset u (by rw [hentries]; exact List.mem_cons_self)
      have hoverlay : e.undo.2.overlay = _ :=
        congrArg Prod.snd (Overlay.undo_of_entries_eq_cons hentries)
      rw [hoverlay, Overlay.positions_merge, h.positions_eq]
      exact Finset.union_eq_left.mpr hold
  · refine h.undo_subset u ?_
    cases hentries : e.overlay.history.entries with
    | nil => rwa [undo_of_entries_eq_nil hentries, hentries] at hu
    | cons newest rest =>
      rw [(h.shown_undo hentries).2] at hu
      exact List.mem_cons_of_mem newest hu

theorem changeAll (hlaw : Store.Lawful sound contents) (h : Traces sound contents s touched e m)
    (hne : ∀ r ∈ edits, r.values ≠ []) (hall : e.changeAll edits = .ok e') :
    Traces sound contents s (touched ∪ positions edits) e' (m.changeAll edits) := by
  induction edits generalizing e m touched with
  | nil =>
    cases hall
    rwa [show positions [] = ∅ from rfl, Finset.union_empty]
  | cons r edits ih =>
    rw [List.forall_mem_cons] at hne
    obtain ⟨next, hchange, hothers⟩ := changeAll_cons_eq_ok_iff.mp hall
    rw [positions_cons, ← Finset.union_assoc]
    exact ih (h.change hlaw hne.1 hchange) hne.2 hothers

theorem undoMany (hlaw : Store.Lawful sound contents) (h : Traces sound contents s touched e m)
    (u : Nat) : Traces sound contents s touched (e.undoMany u) (Snapshots.undo^[u] m) := by
  induction u generalizing e m with
  | zero => exact h
  | succ u ih =>
    rw [Function.iterate_succ_apply, Editor.undoMany]
    split_ifs with hundo
    · exact ih (h.undo hlaw)
    · -- without an entry there is no saved array, and nothing to undo
      have hentries : e.overlay.history.entries = [] := by
        rwa [Overlay.hasUndo, Bool.not_eq_true', Bool.not_eq_false, List.isEmpty_iff] at hundo
      have hsaved : m.saved = [] := by rw [h.saved_eq, hentries, unwind]
      rw [Snapshots.undo_of_saved_eq_nil hsaved, Function.iterate_fixed]
      · exact h
      · exact Snapshots.undo_of_saved_eq_nil hsaved

end Traces

/-- **Edits and then undos.** What is shown are the first edits over the elements of the store, up
to those that the limit lets be undone. The positions of all edits stay changed. -/
theorem undoMany_changeAll (hlaw : Store.Lawful sound contents) {s : σ} (hs : sound s)
    {limit : Nat} (hne : ∀ r ∈ edits, r.values ≠ [])
    (hall : (withLimit s limit).changeAll edits = .ok e) (u : Nat) :
    Sound sound contents (e.undoMany u) ∧ (e.undoMany u).store = s ∧
      shown contents (e.undoMany u) = overwriteAll (contents s)
        (edits.take (edits.length - min u (min limit edits.length))) ∧
      (e.undoMany u).overlay.runs.positions = positions edits := by
  have htraces := ((Traces.withLimit hlaw hs limit).changeAll hlaw hne hall).undoMany hlaw u
  refine ⟨htraces.toSound, htraces.store_eq, ?_, ?_⟩
  · rw [← htraces.array_eq, Snapshots.array_undo_changeAll]
  · rw [htraces.positions_eq, Finset.empty_union]

end Editor
end EditOverlay
