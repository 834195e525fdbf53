import EditOverlay.Editor
import EditOverlay.Proofs.Overlay.Reading
import EditOverlay.Proofs.Overlay.Split
import EditOverlay.Proofs.Store.Lawful

/-! # Editors: the elements that are shown

An editor over a lawful store shows a list of elements: those of the store with the runs over them
(`Editor.shown`). This says what each operation does to the list.

* `Sound.values_eq`: it is what the editor gives to be read.
* `Sound.change_ok`: a change overwrites its range in it, and records what the range was.
* `Sound.shown_undo`: an undo overwrites the range of its entry with what the entry has kept.
* `Sound.save_cases`: a save leaves it, whether it succeeds or fails.

`Sound.run` is the invariant behind this: store and overlay stay sound and of the same size. -/

namespace EditOverlay

/-! ### Stores under a commit -/

theorem Store.StaysExact.storeAfter {σ : Type} [Store σ] {sound : σ → Prop}
    (hlaw : StaysExact sound) {s : σ} (hs : sound s) {runs : RunList}
    (hin : ∀ r ∈ runs, r.stop ≤ Store.length s) :
    sound (Overlay.storeAfter s runs) ∧
      Store.width (Overlay.storeAfter s runs) = Store.width s ∧
      Store.length (Overlay.storeAfter s runs) = Store.length s := by
  refine List.foldlRecOn (motive := fun s' =>
    sound s' ∧ Store.width s' = Store.width s ∧ Store.length s' = Store.length s) runs _
    ⟨hs, rfl, rfl⟩ fun s' hs' r hr => ?_
  obtain ⟨hsound, hwidth, hlength⟩ := hs'
  obtain ⟨hsound', hwidth', hlength'⟩ := hlaw.write hsound (hlength ▸ hin r hr)
  exact ⟨hsound', hwidth'.trans hwidth, hlength'.trans hlength⟩

namespace Editor

open RunList

variable {σ : Type} [Store σ]

/-! ### Operations as data -/

/-- A call that may change an editor. -/
inductive Operation where
  | change (pos : Nat) (values : List Nat)
  | undo
  | save
  | revert
  deriving DecidableEq, Repr

/-- The editor after an operation. A change that is refused changes nothing. -/
def Operation.run (e : Editor σ) : Operation → Editor σ
  | .change pos values =>
    match e.change pos values with
    | .ok e' => e'
    | .error _ => e
  | .undo => e.undo.2
  | .save => e.save.1
  | .revert => e.revert

/-- The editor after operations, in their order. -/
def after (e : Editor σ) (ops : List Operation) : Editor σ := ops.foldl Operation.run e

/-- What an operation asks of the overlay over the store `s`. -/
def Operation.onOverlay (s : σ) : Operation → Overlay.Operation
  | .change pos values => .change s pos values true
  | .undo => .undo
  | .save => .commit s
  | .revert => .clear

theorem change_eq_ok_iff {e e' : Editor σ} {pos : Nat} {values : List Nat} :
    e.change pos values = .ok e' ↔
      ∃ o, e.overlay.change e.store pos values true = .ok o ∧ e' = { e with overlay := o } := by
  unfold change
  rw [bind_eq_ok]
  refine exists_congr fun o => and_congr_right fun _ => ⟨fun h => ?_, fun h => ?_⟩
  · cases h
    rfl
  · rw [h]
    rfl

theorem overlay_run (e : Editor σ) (op : Operation) :
    (op.run e).overlay = (op.onOverlay e.store).run e.overlay := by
  cases op with
  | change pos values =>
    simp only [Operation.run, Operation.onOverlay, Overlay.Operation.run, Editor.change]
    cases e.overlay.change e.store pos values true with
    | ok o => rfl
    | error err => rfl
  | undo => rfl
  | save => rfl
  | revert => rfl

theorem store_run (e : Editor σ) {op : Operation} (h : op ≠ .save) :
    (op.run e).store = e.store := by
  cases op with
  | change pos values =>
    simp only [Operation.run]
    cases hchange : e.change pos values with
    | ok e' =>
      obtain ⟨o, -, rfl⟩ := change_eq_ok_iff.mp hchange
      rfl
    | error err => rfl
  | save => exact absurd rfl h
  | undo => rfl
  | revert => rfl

theorem sound_overlay_run {Q : Nat → Prop} {e : Editor σ} (h : e.overlay.Sound Q)
    (hQ : ∀ v, e.overlay.width.Fits v → Q v) (hs : Store.ReadsWithin Q e.store) (op : Operation) :
    (op.run e).overlay.Sound Q ∧ (op.run e).overlay.width = e.overlay.width ∧
      (op.run e).overlay.length = e.overlay.length := by
  have hreads : (op.onOverlay e.store).ReadsWithin Q := by
    cases op with
    | change pos values => exact hs
    | _ => trivial
  obtain ⟨hwidth, hlength, -⟩ := (Overlay.effect_run h hreads).frame
  rw [overlay_run]
  exact ⟨h.run hQ hreads, hwidth, hlength⟩

omit [Store σ] in
theorem undo_of_entries_eq_nil {e : Editor σ} (h : e.overlay.history.entries = []) :
    e.undo.2 = e := by
  unfold undo
  rw [Overlay.undo_of_entries_eq_nil h]

/-! ### The elements shown -/

/-- **A view is the range up to the end of the store,** or is refused if it starts behind it. -/
theorem view_eq_values {e : Editor σ} {xs : List Nat} (h : e.overlay.LaidOver e.store xs)
    (offset count : Nat) : e.view offset count =
      if xs.length < offset then .error (.outOfRange offset xs.length)
      else e.values offset (min count (xs.length - offset)) := by
  unfold view values Overlay.values
  rw [h.exact.length_eq, h.length_eq, Width.ensureSame_eq_ok_iff.mpr h.width_eq.symm]
  simp only
  split_ifs with hoffset
  · rfl
  · have hrange : offset + min count (xs.length - offset) ≤ xs.length := by omega
    rw [checkRange_eq_ok_iff.mpr ⟨hrange, rfl⟩]
    rfl

/-- The elements of the store with the changes over them. -/
def shown (contents : σ → List Nat) (e : Editor σ) : List Nat :=
  e.overlay.runs.overlaid (contents e.store)

/-- The invariant of editors over a lawful store. -/
structure Sound (sound : σ → Prop) (contents : σ → List Nat) (e : Editor σ) : Prop where
  store : sound e.store
  width_eq : Store.width e.store = e.overlay.width
  length_eq : e.overlay.length = (contents e.store).length
  overlay : e.overlay.Sound e.overlay.width.Fits

variable {sound : σ → Prop} {contents : σ → List Nat} {e : Editor σ}

theorem sound_withLimit (hlaw : Store.Lawful sound contents) {s : σ} (hs : sound s) (limit : Nat) :
    Sound sound contents (withLimit s limit) :=
  ⟨hs, rfl, (hlaw.exact hs).length_eq, Overlay.sound_withLimit _ _ _ _⟩

@[simp] theorem shown_withLimit (contents : σ → List Nat) (s : σ) (limit : Nat) :
    shown contents (withLimit s limit) = contents s := overlaid_nil _

omit [Store σ] in
@[simp] theorem shown_revert (contents : σ → List Nat) (e : Editor σ) :
    shown contents e.revert = contents e.store := overlaid_nil _

namespace Sound

theorem length_shown (h : Sound sound contents e) :
    (shown contents e).length = e.overlay.length := by
  rw [shown, length_overlaid, h.length_eq]

theorem laidOver (hlaw : Store.Lawful sound contents) (h : Sound sound contents e) :
    e.overlay.LaidOver e.store (contents e.store) :=
  ⟨hlaw.exact h.store, h.width_eq, h.length_eq, h.overlay.canonical⟩

theorem values_eq (hlaw : Store.Lawful sound contents) (h : Sound sound contents e)
    {offset count : Nat} (hrange : offset + count ≤ e.overlay.length) :
    e.values offset count = .ok (((shown contents e).take (offset + count)).drop offset) :=
  (h.laidOver hlaw).values_eq_ok_iff.mpr ⟨h.length_eq ▸ hrange, rfl⟩

/-! ### Changing -/

/-- **A change that succeeds** overwrites its range in what is shown, and records what the range
was, unless it is empty. -/
theorem change_ok (hlaw : Store.Lawful sound contents) (h : Sound sound contents e) {e' : Editor σ}
    {pos : Nat} {values : List Nat} (hchange : e.change pos values = .ok e') :
    values = [] ∧ e' = e ∨
      values ≠ [] ∧ pos + values.length ≤ (shown contents e).length ∧
        shown contents e' = overwrite (shown contents e) pos values ∧
        e'.overlay.history = e.overlay.history.push
          ⟨pos, ((shown contents e).take (pos + values.length)).drop pos⟩ := by
  obtain ⟨o, ho, rfl⟩ := change_eq_ok_iff.mp hchange
  obtain ⟨-, ⟨hrange, -⟩, ⟨hempty, rfl⟩ | ⟨hne, -, previous, hprevious, rfl⟩⟩ :=
    Overlay.change_eq_ok ho
  · have hnil : values = [] := hempty.resolve_right Bool.noConfusion
    rw [hnil, Overlay.merge_nil]
    exact Or.inl ⟨rfl, rfl⟩
  · have hslice : e.values pos values.length = _ := h.values_eq hlaw hrange
    rw [show e.values pos values.length = .ok previous from hprevious] at hslice
    cases hslice
    refine Or.inr ⟨hne, by rwa [h.length_shown], ?_, Overlay.merge_history _ _ _⟩
    exact Overlay.overlaid_merge _ (h.length_eq ▸ hrange)

/-- **An undo** overwrites the range of its entry in what is shown with what the entry has kept. -/
theorem shown_undo (h : Sound sound contents e) {u : UndoEntry} {rest : List UndoEntry}
    (hnewest : e.overlay.history.entries = u :: rest) :
    shown contents e.undo.2 = overwrite (shown contents e) u.position u.previous ∧
      e.undo.2.overlay.history = { e.overlay.history with entries := rest } := by
  have hrange := (h.overlay.undo_within u (by rw [hnewest]; exact List.mem_cons_self)).1
  rw [h.length_eq] at hrange
  have hoverlay : e.undo.2.overlay =
      Overlay.merge { e.overlay with history := { e.overlay.history with entries := rest } }
        u.position u.previous := congrArg Prod.snd (Overlay.undo_of_entries_eq_cons hnewest)
  rw [shown, hoverlay, Overlay.merge_history]
  exact ⟨Overlay.overlaid_merge _ hrange, rfl⟩

/-! ### Saving -/

/-- **A save moves the first runs into the store.** If it succeeds, these are all runs. -/
theorem save_cases (hlaw : Store.Lawful sound contents) (h : Sound sound contents e) :
    Sound sound contents e.save.1 ∧ shown contents e.save.1 = shown contents e ∧
      e.save.1.overlay.history = e.overlay.history ∧
      ∀ report, e.save.2 = .ok report → e.save.1.overlay.runs = [] := by
  obtain ⟨j, hstops, hstore, hoverlay, hresult⟩ := h.overlay.commit_cases h.width_eq
  have hcontents :
      contents e.save.1.store = overlaid (e.overlay.runs.take j) (contents e.store) := by
    refine List.ext_getElem? fun p => ?_
    have hwithin : ∀ r ∈ e.overlay.runs.take j,
        r.Within e.overlay.width.Fits (contents e.store).length := fun r hr =>
      h.length_eq ▸ h.overlay.runs_within r (List.mem_of_mem_take hr)
    have hheld := Overlay.held_storeAfter_take hlaw.writes h.overlay.canonical hstops p
    rw [← hstore] at hheld
    rw [getElem?_overlaid_of_within hwithin]
    exact hheld
  have hsaved : e.save.1.overlay = { e.overlay with runs := e.overlay.runs.drop j } := hoverlay
  have hwritten :
      e.save.1.store = Overlay.storeAfter e.store (e.overlay.runs.take (j + 1)) := hstore
  have hin : ∀ r ∈ e.overlay.runs.take (j + 1), r.stop ≤ Store.length e.store := fun r hr => by
    rw [(hlaw.exact h.store).length_eq, ← h.length_eq]
    exact (h.overlay.runs_within r (List.mem_of_mem_take hr)).1
  obtain ⟨hsound, hwidth, -⟩ := hlaw.staysExact.storeAfter h.store hin
  rw [← hwritten] at hsound hwidth
  refine ⟨⟨hsound, ?_, ?_, ?_⟩, ?_, ?_, fun report hreport => ?_⟩
  · rw [hwidth, h.width_eq, hsaved]
  · rw [hcontents, length_overlaid, hsaved, h.length_eq]
  · rw [hsaved]
    exact h.overlay.drop j
  · rw [shown, hcontents, hsaved, h.overlay.canonical.overlaid_take_drop, shown]
  · rw [hsaved]
  · rcases hresult with ⟨hall, -⟩ | ⟨err, -, herror⟩
    · rw [hsaved, hall, List.drop_length]
    · rw [show e.save.2 = .error err from herror] at hreport
      cases hreport

/-! ### The invariant is kept -/

theorem overlay_run (hlaw : Store.Lawful sound contents) (h : Sound sound contents e)
    (op : Operation) : (op.run e).overlay.Sound e.overlay.width.Fits ∧
      (op.run e).overlay.width = e.overlay.width ∧
      (op.run e).overlay.length = e.overlay.length := by
  have hreads : Store.ReadsWithin e.overlay.width.Fits e.store :=
    (hlaw.exact h.store).readsWithin fun v hv => h.width_eq ▸ hlaw.fits h.store v hv
  exact sound_overlay_run h.overlay (fun _ hv => hv) hreads op

theorem frame_run (hlaw : Store.Lawful sound contents) (h : Sound sound contents e)
    (op : Operation) :
    (op.run e).overlay.width = e.overlay.width ∧ (op.run e).overlay.length = e.overlay.length :=
  (h.overlay_run hlaw op).2

theorem run (hlaw : Store.Lawful sound contents) (h : Sound sound contents e) (op : Operation) :
    Sound sound contents (op.run e) := by
  by_cases hsave : op = .save
  · rw [hsave]
    exact (h.save_cases hlaw).1
  · -- the store stays, so that all is said by the invariant of the overlay
    obtain ⟨hoverlay, hwidth, hlength⟩ := h.overlay_run hlaw op
    refine ⟨?_, ?_, ?_, by rwa [hwidth]⟩
    · rw [store_run e hsave]
      exact h.store
    · rw [store_run e hsave, hwidth, h.width_eq]
    · rw [store_run e hsave, hlength, h.length_eq]

theorem length_after (hlaw : Store.Lawful sound contents) (h : Sound sound contents e)
    (ops : List Operation) : (e.after ops).overlay.length = e.overlay.length := by
  induction ops generalizing e with
  | nil => rfl
  | cons op ops ih => exact (ih (h.run hlaw op)).trans (h.frame_run hlaw op).2

end Sound
end Editor
end EditOverlay
