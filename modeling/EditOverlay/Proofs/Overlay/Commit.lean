import EditOverlay.Proofs.Overlay.Operation
import Mathlib.Algebra.GroupWithZero.Nat

/-! # Overlays: the loop of a commit

A commit writes run after run until a write fails. `storeAfter s runs` is the store after an attempt
to write each of `runs` in turn, whatever comes of it, and `writeOutcome s runs i` is what comes of
the attempt at index `i`. With these, `commitRuns_cases` says all that the loop can do. In each case
a rear part of the runs is left (`exists_commit_overlay`). -/

namespace EditOverlay.Overlay

open RunList

variable {σ : Type} [Store σ]

/-- The store after an attempt to write each of the runs in turn. -/
def storeAfter (s : σ) (runs : RunList) : σ :=
  runs.foldl (fun s r => (Store.write s r.start r.values).1) s

/-- What comes of the attempt to write the run at an index, after those before it. -/
def writeOutcome (s : σ) (runs : RunList) (i : Nat) : Option (Except EditError Unit) :=
  runs[i]?.map fun r => (Store.write (storeAfter s (runs.take i)) r.start r.values).2

@[simp] theorem storeAfter_nil (s : σ) : storeAfter s [] = s := rfl

theorem storeAfter_cons (s : σ) (r : Run) (runs : RunList) :
    storeAfter s (r :: runs) = storeAfter (Store.write s r.start r.values).1 runs := rfl

theorem storeAfter_append (s : σ) (runs rest : RunList) :
    storeAfter s (runs ++ rest) = storeAfter (storeAfter s runs) rest := List.foldl_append

theorem writeOutcome_zero (s : σ) (r : Run) (runs : RunList) :
    writeOutcome s (r :: runs) 0 = some (Store.write s r.start r.values).2 := rfl

theorem writeOutcome_succ (s : σ) (r : Run) (runs : RunList) (i : Nat) :
    writeOutcome s (r :: runs) (i + 1) =
      writeOutcome (Store.write s r.start r.values).1 runs i := rfl

theorem writeOutcome_eq_none_iff {s : σ} {runs : RunList} {i : Nat} :
    writeOutcome s runs i = none ↔ runs.length ≤ i := by
  rw [writeOutcome, Option.map_eq_none_iff, List.getElem?_eq_none_iff]

theorem writeOutcome_take {s : σ} {runs : RunList} {i j : Nat} (h : i < j) :
    writeOutcome s (runs.take j) i = writeOutcome s runs i := by
  unfold writeOutcome
  rw [List.getElem?_take_of_lt h, List.take_take, Nat.min_eq_left h.le]

theorem commitRuns_cons_ok {o : Overlay} {r : Run} {runs : RunList} {s s' : σ}
    {written : SaveReport} (hwrite : Store.write s r.start r.values = (s', .ok ())) :
    o.commitRuns s written (r :: runs) =
      o.commitRuns s' ⟨written.runs + 1, written.elements + r.length⟩ runs := by
  rw [commitRuns, hwrite]

/-- A run that cannot be written goes back in front of those behind it, unless it is not valid. -/
theorem commitRuns_cons_error {o : Overlay} {r : Run} {runs : RunList} {s s' : σ} {e : EditError}
    (h : Canonical (r :: runs)) (written : SaveReport)
    (hwrite : Store.write s r.start r.values = (s', .error e)) :
    r.Within o.width.Fits o.length ∧
      o.commitRuns s written (r :: runs) = ⟨{ o with runs := r :: runs }, s', .error e⟩ ∨
    ∃ e', o.validate r.start r.values = .error e' ∧
      o.commitRuns s written (r :: runs) = ⟨{ o with runs := runs }, s', .error e'⟩ := by
  rw [commitRuns, hwrite]
  cases hrequeue : Overlay.requeue { o with runs := runs } r.start r.values with
  | ok o' =>
    obtain ⟨hr, rfl⟩ := requeue_eq_ok_iff.mp hrequeue
    refine Or.inl ⟨hr, ?_⟩
    rw [merge_of_ne_nil _ _ (h.nonempty r List.mem_cons_self), h.write_start]
  | error e' =>
    have hinvalid := requeue_eq_error_iff.mp hrequeue
    exact Or.inr ⟨e', hinvalid, rfl⟩

/-- **All that the loop of a commit can do.** The runs before the index `j` are written. If there is
no run at `j`, nothing is left and the report counts all. If the write of the run at `j` fails, this
is the last one; the run goes back in front of those behind it, or is lost if it is not valid. -/
theorem commitRuns_cases (o : Overlay) {runs : RunList} (h : Canonical runs) (s : σ)
    (written : SaveReport) :
    ∃ j, (∀ i < j, writeOutcome s runs i = some (.ok ())) ∧
      (o.commitRuns s written runs).store = storeAfter s (runs.take (j + 1)) ∧
      (j = runs.length ∧ (o.commitRuns s written runs).overlay = { o with runs := [] } ∧
        (o.commitRuns s written runs).result =
          .ok ⟨written.runs + runs.length, written.elements + (runs.map Run.length).sum⟩ ∨
      ∃ r rest e, runs.drop j = r :: rest ∧ writeOutcome s runs j = some (.error e) ∧
        (r.Within o.width.Fits o.length ∧
          (o.commitRuns s written runs).overlay = { o with runs := r :: rest } ∧
          (o.commitRuns s written runs).result = .error e ∨
        ∃ e', o.validate r.start r.values = .error e' ∧
          (o.commitRuns s written runs).overlay = { o with runs := rest } ∧
          (o.commitRuns s written runs).result = .error e')) := by
  induction runs generalizing s written with
  | nil => exact ⟨0, fun i hi => absurd hi (Nat.not_lt_zero i), rfl, Or.inl ⟨rfl, rfl, rfl⟩⟩
  | cons r rest ih =>
    rcases hwrite : Store.write s r.start r.values with ⟨s', e | u⟩
    · -- the first write fails
      have hfail : writeOutcome s (r :: rest) 0 = some (.error e) := by
        rw [writeOutcome_zero, hwrite]
      have hstore : storeAfter s ((r :: rest).take 1) = s' := by
        rw [List.take_succ_cons, List.take_zero, storeAfter_cons, hwrite, storeAfter_nil]
      refine ⟨0, fun i hi => absurd hi (Nat.not_lt_zero i), ?_⟩
      rcases commitRuns_cons_error h written hwrite with ⟨hr, hcommit⟩ | ⟨e', hinvalid, hcommit⟩
      · rw [hcommit]
        exact ⟨hstore.symm, Or.inr ⟨r, rest, e, rfl, hfail, Or.inl ⟨hr, rfl, rfl⟩⟩⟩
      · rw [hcommit]
        exact ⟨hstore.symm, Or.inr ⟨r, rest, e, rfl, hfail, Or.inr ⟨e', hinvalid, rfl, rfl⟩⟩⟩
    · -- the first write succeeds, and the loop goes on from the store after it
      have hs' : (Store.write s r.start r.values).1 = s' := by rw [hwrite]
      obtain ⟨j, hok, hstore, hend⟩ := ih h.tail s' ⟨written.runs + 1, written.elements + r.length⟩
      rw [commitRuns_cons_ok hwrite]
      refine ⟨j + 1, fun i hi => ?_, ?_, ?_⟩
      · cases i with
        | zero => rw [writeOutcome_zero, hwrite]
        | succ i => rw [writeOutcome_succ, hs', hok i (by omega)]
      · rw [List.take_succ_cons, storeAfter_cons, hs', hstore]
      · rw [List.drop_succ_cons, writeOutcome_succ, hs']
        rcases hend with ⟨rfl, hoverlay, hresult⟩ | hend
        · refine Or.inl ⟨rfl, hoverlay, ?_⟩
          rw [hresult, List.length_cons, List.map_cons, List.sum_cons]
          simp only [Except.ok.injEq, SaveReport.mk.injEq]
          omega
        · exact Or.inr hend

theorem commit_of_width_eq {o : Overlay} {s : σ} (h : Store.width s = o.width) :
    o.commit s = o.commitRuns s ⟨0, 0⟩ o.runs := by
  unfold commit
  rw [Width.ensureSame_eq_ok_iff.mpr h.symm]

theorem commit_of_width_ne {o : Overlay} {s : σ} (h : Store.width s ≠ o.width) :
    o.commit s = ⟨o, s, .error (.widthMismatch o.width.bits (Store.width s).bits)⟩ := by
  unfold commit Width.ensureSame
  rw [if_neg (Ne.symm h)]

/-- **A commit leaves a rear part of the runs,** whatever becomes of the writes. -/
theorem exists_commit_overlay {o : Overlay} (h : Canonical o.runs) (s : σ) :
    ∃ k, (o.commit s).overlay = { o with runs := o.runs.drop k } := by
  by_cases hw : Store.width s = o.width
  · rw [commit_of_width_eq hw]
    obtain ⟨j, -, -, ⟨hj, hoverlay, -⟩ | ⟨r, rest, e, hdrop, -, hend⟩⟩ :=
      commitRuns_cases o h s ⟨0, 0⟩
    · exact ⟨j, by rw [hoverlay, hj, List.drop_length]⟩
    · rcases hend with ⟨-, hoverlay, -⟩ | ⟨e', -, hoverlay, -⟩
      · exact ⟨j, by rw [hoverlay, hdrop]⟩
      · exact ⟨j + 1, by rw [hoverlay, ← List.tail_drop, hdrop, List.tail_cons]⟩
  · exact ⟨0, by rw [commit_of_width_ne hw, List.drop_zero]⟩

theorem exists_commit_store {o : Overlay} (h : Canonical o.runs) (s : σ) :
    ∃ k, (o.commit s).store = storeAfter s (o.runs.take k) := by
  by_cases hw : Store.width s = o.width
  · rw [commit_of_width_eq hw]
    obtain ⟨j, -, hstore, -⟩ := commitRuns_cases o h s ⟨0, 0⟩
    exact ⟨j + 1, hstore⟩
  · exact ⟨0, by rw [commit_of_width_ne hw, List.take_zero, storeAfter_nil]⟩

end EditOverlay.Overlay
