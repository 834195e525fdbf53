import EditOverlay.Proofs.Overlay.Change
import EditOverlay.Proofs.Overlay.Order

/-! # Overlays: what becomes of recorded changes

A change that is recorded is on the undo stack, or it has been dropped from it, or it has been taken
back. `tally` counts the changes that are recorded and the undos that find one, from the last clear
on; every operation keeps the balance between these counts and those of the stack
(`Balanced.tally`). -/

namespace EditOverlay

theorem History.depth_add_dropped_push (h : History) (e : UndoEntry) :
    (h.push e).depth + (h.push e).dropped = h.depth + h.dropped + 1 := by
  simp only [push, depth, List.length_take, List.length_cons]
  omega

/-- How many changes have been recorded, and how many undos have taken one back. -/
structure Tally where
  recorded : Nat
  undone : Nat
  deriving DecidableEq, Repr

namespace Overlay

variable {o : Overlay} {t : Tally}

/-- The tally after an operation on `o`. A change counts if it succeeds, is recorded and has values,
an undo if it finds an entry. A clear starts the count anew. -/
def Operation.count (o : Overlay) (t : Tally) : Operation → Tally
  | @Operation.change _ _ store pos values record =>
    match o.change store pos values record with
    | .ok _ => if record = true ∧ values ≠ [] then { t with recorded := t.recorded + 1 } else t
    | .error _ => t
  | .undo => if o.hasUndo then { t with undone := t.undone + 1 } else t
  | .clear => ⟨0, 0⟩
  | _ => t

/-- The tally after operations on `o`, in their order. -/
def tally (o : Overlay) (t : Tally) : List Operation → Tally
  | [] => t
  | op :: ops => tally (op.run o) (op.count o t) ops

/-- Each recorded change is on the stack, or dropped, or taken back. -/
def Balanced (o : Overlay) (t : Tally) : Prop :=
  t.recorded = o.history.depth + o.history.dropped + t.undone

theorem Balanced.of_history_eq {o' : Overlay} (h : Balanced o t) (heq : o'.history = o.history) :
    Balanced o' t := by
  unfold Balanced
  rw [heq]
  exact h

theorem Balanced.run (h : Balanced o t) (op : Operation) : Balanced (op.run o) (op.count o t) := by
  cases op with
  | change store pos values record =>
    cases hchange : o.change store pos values record with
    | error e =>
      simp only [Operation.run, Operation.count, hchange]
      exact h
    | ok o' =>
      simp only [Operation.run, Operation.count, hchange]
      obtain ⟨-, -, ⟨hnot, rfl⟩ | ⟨hne, hrecord, previous, -, rfl⟩⟩ := change_eq_ok hchange
      · rw [if_neg (by rcases hnot with rfl | rfl <;> simp)]
        exact h.of_history_eq (merge_history _ _ _)
      · rw [if_pos ⟨hrecord, hne⟩]
        unfold Balanced at h ⊢
        have hpush := o.history.depth_add_dropped_push ⟨pos, previous⟩
        rw [merge_history]
        simp only
        omega
  | undo =>
    rw [Operation.run, Operation.count]
    cases hentries : o.history.entries with
    | nil =>
      rw [undo_of_entries_eq_nil hentries, hasUndo, hentries]
      exact h
    | cons e rest =>
      rw [undo_of_entries_eq_cons hentries, hasUndo, hentries]
      unfold Balanced History.depth at h ⊢
      rw [hentries, List.length_cons] at h
      rw [merge_history]
      simp only [List.isEmpty_cons, Bool.not_false, if_true]
      omega
  | requeue pos values =>
    cases hrequeue : o.requeue pos values with
    | error e =>
      simp only [Operation.run, Operation.count, hrequeue]
      exact h
    | ok o' =>
      simp only [Operation.run, Operation.count, hrequeue]
      obtain ⟨-, rfl⟩ := requeue_eq_ok_iff.mp hrequeue
      exact h.of_history_eq (merge_history _ _ _)
  | popFirst =>
    obtain ⟨-, hpop⟩ | ⟨r, rest, -, hpop⟩ := o.popFirst_cases
    · simp only [Operation.run, Operation.count, hpop]
      exact h
    · simp only [Operation.run, Operation.count, hpop]
      exact h.of_history_eq rfl
  | commit store => exact h.of_history_eq (o.commit_history store)
  | clear => rfl

/-- **The balance holds after all operations** if it holds before them. -/
theorem Balanced.after (h : Balanced o t) (ops : List Operation) :
    Balanced (o.after ops) (o.tally t ops) := by
  induction ops generalizing o t with
  | nil => exact h
  | cons op ops ih => exact ih (h.run op)

theorem balanced_withLimit (width : Width) (length limit : Nat) :
    Balanced (withLimit width length limit) ⟨0, 0⟩ := rfl

end Overlay
end EditOverlay
