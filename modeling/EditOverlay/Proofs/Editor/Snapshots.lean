import EditOverlay.Proofs.Editor.Shown

/-! # Editors: undo by snapshots

The plain way to undo is to keep the whole array before each change. `Snapshots` does that: an array
and the arrays saved before the changes, of which only the newest are kept. An editor keeps far
less, the old values of one range for each change, and the changes themselves move from the overlay
to the store in parts as saves succeed or fail. `refines_snapshots` says that nobody sees the
difference.

What links the two is `unwind`: laying what the undo entries have kept over the array, the newest
first, brings back the saved arrays one after the other (`Mirrors.saved_eq`). -/

namespace EditOverlay

/-- An array, with the arrays that were saved before changes to it. -/
structure Snapshots where
  array : List Nat
  /-- The saved arrays, the newest first. -/
  saved : List (List Nat)
  /-- The number of saved arrays that are kept. -/
  limit : Nat
  deriving DecidableEq, Repr

namespace Snapshots

/-- Saves the array and overwrites a range of it. -/
def change (m : Snapshots) (pos : Nat) (values : List Nat) : Snapshots :=
  { m with
    array := overwrite m.array pos values
    saved := (m.array :: m.saved).take m.limit }

/-- Goes back to the newest saved array, if there is one. -/
def undo (m : Snapshots) : Snapshots :=
  match m.saved with
  | [] => m
  | array :: rest => { m with array := array, saved := rest }

theorem undo_of_saved_eq_nil {m : Snapshots} (h : m.saved = []) : m.undo = m := by
  unfold undo
  rw [h]

theorem undo_of_saved_eq_cons {m : Snapshots} {xs : List Nat} {rest : List (List Nat)}
    (h : m.saved = xs :: rest) : m.undo = { m with array := xs, saved := rest } := by
  unfold undo
  rw [h]

/-- Starts over from an array. -/
def revert (m : Snapshots) (array : List Nat) : Snapshots := { m with array := array, saved := [] }

variable {σ : Type} [Store σ]

/-- The snapshots after an operation of the editor `e`. Changes that the editor refuses count as
little as empty ones, and saves do not count at all. -/
def step (contents : σ → List Nat) (e : Editor σ) (m : Snapshots) : Editor.Operation → Snapshots
  | .change pos values =>
    match e.change pos values with
    | .ok _ => if values = [] then m else m.change pos values
    | .error _ => m
  | .undo => m.undo
  | .save => m
  | .revert => m.revert (contents e.store)

/-- An editor and the snapshots beside it after operations, in their order. -/
def follow (contents : σ → List Nat) (e : Editor σ) (m : Snapshots) :
    List Editor.Operation → Editor σ × Snapshots
  | [] => (e, m)
  | op :: ops => follow contents (op.run e) (m.step contents e op) ops

theorem follow_fst (contents : σ → List Nat) (e : Editor σ) (m : Snapshots)
    (ops : List Editor.Operation) : (m.follow contents e ops).1 = e.after ops := by
  induction ops generalizing e m with
  | nil => rfl
  | cons op ops ih => exact ih (op.run e) (m.step contents e op)

end Snapshots

/-! ### Unwinding -/

/-- What is brought back by undoing the entries one after the other. -/
def unwind (xs : List Nat) : List UndoEntry → List (List Nat)
  | [] => []
  | u :: rest =>
    let before := overwrite xs u.position u.previous
    before :: unwind before rest

theorem unwind_take (xs : List Nat) (entries : List UndoEntry) (k : Nat) :
    unwind xs (entries.take k) = (unwind xs entries).take k := by
  induction entries generalizing xs k with
  | nil => rw [List.take_nil, unwind, List.take_nil]
  | cons u rest ih =>
    cases k with
    | zero => rfl
    | succ k => rw [List.take_succ_cons, unwind, unwind, List.take_succ_cons, ih]

theorem unwind_eq_nil_iff {xs : List Nat} {entries : List UndoEntry} :
    unwind xs entries = [] ↔ entries = [] := by
  cases entries with
  | nil => exact ⟨fun _ => rfl, fun _ => rfl⟩
  | cons u rest =>
    rw [unwind]
    exact ⟨fun h => (List.cons_ne_nil _ _ h).elim, fun h => (List.cons_ne_nil _ _ h).elim⟩

/-- **What was overwritten comes back** when it is laid over the range again. -/
theorem overwrite_overwrite_slice {xs values : List Nat} {pos : Nat}
    (h : pos + values.length ≤ xs.length) :
    overwrite (overwrite xs pos values) pos ((xs.take (pos + values.length)).drop pos) = xs := by
  have hslice : ((xs.take (pos + values.length)).drop pos).length = values.length := by
    rw [List.length_drop, List.length_take]
    omega
  refine List.ext_getElem? fun p => ?_
  rw [getElem?_overwrite (by rw [length_overwrite h, hslice]; exact h), hslice,
    getElem?_overwrite h]
  split_ifs with hp
  · rw [List.getElem?_drop, List.getElem?_take_of_lt (by omega)]
    congr 1
    omega
  · rfl

/-- **The entry that a change records** unwinds to the array before, and the others from there on as
before. -/
theorem Snapshots.saved_change {m : Snapshots} {entries : List UndoEntry} {pos : Nat}
    {values : List Nat} (hsaved : m.saved = unwind m.array entries)
    (hrange : pos + values.length ≤ m.array.length) :
    (m.change pos values).saved = unwind (m.change pos values).array
      (List.take m.limit (⟨pos, (m.array.take (pos + values.length)).drop pos⟩ :: entries)) := by
  change (m.array :: m.saved).take m.limit = unwind (overwrite m.array pos values) _
  rw [unwind_take, unwind, overwrite_overwrite_slice hrange, hsaved]

namespace Editor

open RunList

variable {σ : Type} [Store σ] {sound : σ → Prop} {contents : σ → List Nat} {e : Editor σ}
  {m : Snapshots}

/-- The snapshots are those of the editor. -/
structure Mirrors (sound : σ → Prop) (contents : σ → List Nat) (e : Editor σ) (m : Snapshots) :
    Prop extends Sound sound contents e where
  array_eq : m.array = shown contents e
  saved_eq : m.saved = unwind m.array e.overlay.history.entries
  limit_eq : m.limit = e.overlay.history.limit

namespace Mirrors

theorem withLimit (hlaw : Store.Lawful sound contents) {s : σ} (hs : sound s) (limit : Nat) :
    Mirrors sound contents (Editor.withLimit s limit) ⟨contents s, [], limit⟩ :=
  ⟨sound_withLimit hlaw hs limit, (shown_withLimit contents s limit).symm, rfl, rfl⟩

theorem change (hlaw : Store.Lawful sound contents) (h : Mirrors sound contents e m)
    {e' : Editor σ} {pos : Nat} {values : List Nat} (hchange : e.change pos values = .ok e')
    (hsound : Sound sound contents e') :
    Mirrors sound contents e' (if values = [] then m else m.change pos values) := by
  rcases h.change_ok hlaw hchange with ⟨hnil, rfl⟩ | ⟨hne, hrange, hshown, hhistory⟩
  · rwa [if_pos hnil]
  rw [if_neg hne]
  rw [← h.array_eq] at hrange hshown hhistory
  refine ⟨hsound, hshown.symm, ?_, by rw [hhistory]; exact h.limit_eq⟩
  rw [hhistory, Snapshots.saved_change h.saved_eq hrange, h.limit_eq]
  rfl

theorem undo (h : Mirrors sound contents e m) (hsound : Sound sound contents e.undo.2) :
    Mirrors sound contents e.undo.2 m.undo := by
  have hsaved := h.saved_eq
  cases hentries : e.overlay.history.entries with
  | nil =>
    rw [hentries, unwind] at hsaved
    rw [undo_of_entries_eq_nil hentries, Snapshots.undo_of_saved_eq_nil hsaved]
    exact h
  | cons u rest =>
    rw [hentries, unwind] at hsaved
    obtain ⟨hshown, hhistory⟩ := h.shown_undo hentries
    rw [Snapshots.undo_of_saved_eq_cons hsaved]
    refine ⟨hsound, ?_, ?_, ?_⟩
    · rw [hshown, h.array_eq]
    · rw [hhistory]
    · rw [hhistory]
      exact h.limit_eq

/-- **Every operation keeps the snapshots those of the editor.** -/
theorem step (hlaw : Store.Lawful sound contents) (h : Mirrors sound contents e m)
    (op : Operation) : Mirrors sound contents (op.run e) (m.step contents e op) := by
  have hsound := h.run hlaw op
  cases op with
  | change pos values =>
    simp only [Operation.run, Snapshots.step] at hsound ⊢
    cases hchange : e.change pos values with
    | error err => exact h
    | ok e' =>
      rw [hchange] at hsound
      exact h.change hlaw hchange hsound
  | undo => exact h.undo hsound
  | save =>
    obtain ⟨-, hshown, hhistory, -⟩ := h.save_cases hlaw
    refine ⟨hsound, h.array_eq.trans hshown.symm, ?_, ?_⟩
    · rw [show (Operation.save.run e).overlay.history = _ from hhistory]
      exact h.saved_eq
    · rw [show (Operation.save.run e).overlay.history = _ from hhistory]
      exact h.limit_eq
  | revert => exact ⟨hsound, (shown_revert contents e).symm, rfl, h.limit_eq⟩

theorem follow (hlaw : Store.Lawful sound contents) (h : Mirrors sound contents e m)
    (ops : List Operation) :
    Mirrors sound contents (m.follow contents e ops).1 (m.follow contents e ops).2 := by
  induction ops generalizing e m with
  | nil => exact h
  | cons op ops ih => exact ih (h.step hlaw op)

end Mirrors

/-- **An editor is an array with undo by snapshots.** The store holds elements that are read
exactly, and may refuse any write. Then whatever the operations and whichever saves fail, the editor
gives the array to be read, and can undo if and only if there is a saved array; and a save that
succeeds leaves the array in the store and no changes. -/
theorem refines_snapshots (hlaw : Store.Lawful sound contents) {s : σ} (hs : sound s) (limit : Nat)
    (ops : List Operation) :
    let final := Snapshots.follow contents (withLimit s limit) ⟨contents s, [], limit⟩ ops
    final.1 = (withLimit s limit).after ops ∧
      final.1.values 0 (Store.length s) = .ok final.2.array ∧
      (final.1.overlay.hasUndo = true ↔ final.2.saved ≠ []) ∧
      ∀ report, final.1.save.2 = .ok report →
        contents final.1.save.1.store = final.2.array ∧
          final.1.save.1.overlay.hasChanges = false := by
  intro final
  have hfst : final.1 = (withLimit s limit).after ops := Snapshots.follow_fst _ _ _ ops
  have h : Mirrors sound contents final.1 final.2 :=
    (Mirrors.withLimit hlaw hs limit).follow hlaw ops
  have hlength : final.1.overlay.length = Store.length s := by
    rw [hfst]
    exact (sound_withLimit hlaw hs limit).length_after hlaw ops
  refine ⟨hfst, ?_, ?_, fun report hreport => ?_⟩
  · rw [h.values_eq hlaw (by omega), h.array_eq, ← hlength, List.drop_zero, Nat.zero_add,
      List.take_of_length_le h.length_shown.le]
  · rw [h.saved_eq, Ne, unwind_eq_nil_iff, Overlay.hasUndo, Bool.not_eq_true',
      List.isEmpty_eq_false_iff]
  · obtain ⟨-, hshown, -, hempty⟩ := h.save_cases hlaw
    have hruns := hempty report hreport
    rw [shown, hruns, overlaid_nil] at hshown
    refine ⟨hshown.trans h.array_eq.symm, ?_⟩
    unfold Overlay.hasChanges
    rw [hruns]
    rfl

/-- A file of four elements and a byte, in which the second write fails. When the save fails, the
first change is in the file and the second one is not; both are undone. -/
theorem refines_snapshots_partial_save :
    let s : Unsteady FileStore := ⟨⟨"a.bin", .w16, .readWrite, [1, 0, 2, 0, 3, 0, 4, 1, 255]⟩,
      fun n => if n = 1 then some (.writeFailed 2 "device") else none, 0⟩
    let contents := fun u : Unsteady FileStore => u.store.elements
    let ops : List Operation := [.change 0 [10], .change 2 [30], .save, .undo, .undo]
    let final := Snapshots.follow contents (withLimit s 2) ⟨contents s, [], 2⟩ ops
    final.2 = ⟨[1, 2, 3, 260], [], 2⟩ ∧ contents final.1.store = [10, 2, 3, 260] ∧
      final.1 = (withLimit s 2).after ops ∧
      final.1.values 0 (Store.length s) = .ok final.2.array ∧
      (final.1.overlay.hasUndo = true ↔ final.2.saved ≠ []) ∧
      ∀ report, final.1.save.2 = .ok report →
        contents final.1.save.1.store = final.2.array ∧
          final.1.save.1.overlay.hasChanges = false := by
  intro s contents ops
  exact ⟨by decide, by decide,
    refines_snapshots (Unsteady.lawful FileStore.lawful) (s := s) trivial 2 ops⟩

end Editor
end EditOverlay
