import EditOverlay.Proofs.Editor.Shown
import EditOverlay.Proofs.Overlay.Order

/-! # Editors: scripts of all operations

An editor lets its overlay be used by some of its operations only. A script uses all of them over
the store of the editor: changes that are recorded and such that are not, undos, blocks put back,
runs taken out, commits and clears (`Call`). Between them anything may happen to the store, so that
a script may also go on with another store, or with other faults (`Step.exchange`). -/

namespace EditOverlay.Editor

/-- A call of the overlay of an editor, with its arguments. -/
inductive Call where
  | change (pos : Nat) (values : List Nat) (record : Bool)
  | undo
  | requeue (pos : Nat) (values : List Nat)
  | popFirst
  | commit
  | clear
  deriving DecidableEq, Repr

/-- What a call gives. -/
inductive Answer where
  | accepted
  | refused (e : EditError)
  | undone (position : Nat)
  | popped (run : Option Run)
  | committed (result : Except EditError SaveReport)
  | cleared
  deriving DecidableEq

/-- A step of a script: a call, or something that happens to the store. -/
inductive Step (σ : Type) where
  | call (c : Call)
  | exchange (f : σ → σ)

variable {σ : Type} [Store σ]

/-- The editor after a call, and what the call gives. One that is refused changes nothing. -/
def call (e : Editor σ) : Call → Editor σ × Answer
  | .change pos values record =>
    match e.overlay.change e.store pos values record with
    | .ok o => ({ e with overlay := o }, .accepted)
    | .error err => (e, .refused err)
  | .undo => (e.undo.2, .undone e.undo.1)
  | .requeue pos values =>
    match e.overlay.requeue pos values with
    | .ok o => ({ e with overlay := o }, .accepted)
    | .error err => (e, .refused err)
  | .popFirst =>
    match e.overlay.popFirst? with
    | some (r, o) => ({ e with overlay := o }, .popped (some r))
    | none => (e, .popped none)
  | .commit => (e.save.1, .committed e.save.2)
  | .clear => (e.revert, .cleared)

/-- The editor after a step, and what it gives if it is a call. -/
def perform (e : Editor σ) : Step σ → Editor σ × Option Answer
  | .call c => ((e.call c).1, some (e.call c).2)
  | .exchange f => ({ e with store := f e.store }, none)

/-- The editor after steps, in their order. -/
def play (e : Editor σ) (steps : List (Step σ)) : Editor σ :=
  steps.foldl (fun e step => (e.perform step).1) e

/-- What the steps give, in their order. -/
def answers (e : Editor σ) : List (Step σ) → List (Option Answer)
  | [] => []
  | step :: steps => (e.perform step).2 :: answers (e.perform step).1 steps

theorem play_cons (e : Editor σ) (step : Step σ) (steps : List (Step σ)) :
    e.play (step :: steps) = (e.perform step).1.play steps := rfl

theorem play_append (e : Editor σ) (steps steps' : List (Step σ)) :
    e.play (steps ++ steps') = (e.play steps).play steps' := List.foldl_append

/-! ### What a call does -/

section Call

variable {e : Editor σ} {o : Overlay} {pos : Nat} {values : List Nat} {record : Bool}
  {err : EditError} {r : Run}

theorem call_change_of_ok (h : e.overlay.change e.store pos values record = .ok o) :
    e.call (.change pos values record) = ({ e with overlay := o }, .accepted) := by
  simp only [call, h]

theorem call_change_of_error (h : e.overlay.change e.store pos values record = .error err) :
    e.call (.change pos values record) = (e, .refused err) := by
  simp only [call, h]

theorem call_requeue_of_ok (h : e.overlay.requeue pos values = .ok o) :
    e.call (.requeue pos values) = ({ e with overlay := o }, .accepted) := by
  simp only [call, h]

theorem call_requeue_of_error (h : e.overlay.requeue pos values = .error err) :
    e.call (.requeue pos values) = (e, .refused err) := by
  simp only [call, h]

theorem call_popFirst_of_some (h : e.overlay.popFirst? = some (r, o)) :
    e.call .popFirst = ({ e with overlay := o }, .popped (some r)) := by
  simp only [call, h]

theorem call_popFirst_of_none (h : e.overlay.popFirst? = none) :
    e.call .popFirst = (e, .popped none) := by
  simp only [call, h]

theorem history_call_requeue (e : Editor σ) (pos : Nat) (values : List Nat) :
    (e.call (.requeue pos values)).1.overlay.history = e.overlay.history := by
  cases hrequeue : e.overlay.requeue pos values with
  | error err => rw [call_requeue_of_error hrequeue]
  | ok o =>
    obtain ⟨-, rfl⟩ := Overlay.requeue_eq_ok_iff.mp hrequeue
    rw [call_requeue_of_ok hrequeue, Overlay.merge_history]

theorem history_call_popFirst (e : Editor σ) :
    (e.call .popFirst).1.overlay.history = e.overlay.history := by
  obtain ⟨-, hpop⟩ | ⟨r, rest, -, hpop⟩ := e.overlay.popFirst_cases
  · rw [call_popFirst_of_none hpop]
  · rw [call_popFirst_of_some hpop]

theorem history_call_commit (e : Editor σ) :
    (e.call .commit).1.overlay.history = e.overlay.history := e.overlay.commit_history e.store

theorem entries_call_undo (e : Editor σ) :
    (e.call .undo).1.overlay.history.entries = e.overlay.history.entries.tail := by
  cases hentries : e.overlay.history.entries with
  | nil =>
    have hundo : (e.call .undo).1 = e := undo_of_entries_eq_nil hentries
    rw [hundo, hentries, List.tail_nil]
  | cons u rest =>
    have hundo : (e.call .undo).1.overlay = _ :=
      congrArg Prod.snd (Overlay.undo_of_entries_eq_cons hentries)
    rw [hundo, Overlay.merge_history, List.tail_cons]

end Call

/-- What a call asks of the overlay over the store `s`. -/
def Call.onOverlay (s : σ) : Call → Overlay.Operation
  | .change pos values record => .change s pos values record
  | .undo => .undo
  | .requeue pos values => .requeue pos values
  | .popFirst => .popFirst
  | .commit => .commit s
  | .clear => .clear

theorem overlay_call (e : Editor σ) (c : Call) :
    (e.call c).1.overlay = (c.onOverlay e.store).run e.overlay := by
  cases c with
  | change pos values record =>
    simp only [call, Call.onOverlay, Overlay.Operation.run]
    cases e.overlay.change e.store pos values record <;> rfl
  | undo => rfl
  | requeue pos values =>
    simp only [call, Call.onOverlay, Overlay.Operation.run]
    cases e.overlay.requeue pos values <;> rfl
  | popFirst =>
    simp only [call, Call.onOverlay, Overlay.Operation.run]
    cases e.overlay.popFirst? <;> rfl
  | commit => rfl
  | clear => rfl

end EditOverlay.Editor
