import EditOverlay.Proofs.Editor.Steps

/-! # Editors: what holds after a script

A script may leave the overlay and the store of an editor of different lengths, since anything may
happen to the store between two calls. What the reads of the stores on the way give decides what
holds of the overlay (`sound_play`). A view needs of the store before it only that it reads its
elements exactly (`view_eq_of_exact`). -/

namespace EditOverlay

/-- The store has the width, reads its elements exactly, and they fit. -/
structure Store.Fitting {σ : Type} [Store σ] (w : Width) (s : σ) : Prop where
  width_eq : width s = w
  exact : ∃ contents, Exact s contents ∧ ∀ v ∈ contents, w.Fits v

theorem Store.Fitting.readsWithin {σ : Type} [Store σ] {w : Width} {s : σ} (h : Fitting w s) :
    ReadsWithin w.Fits s := by
  obtain ⟨contents, hexact, hfits⟩ := h.exact
  exact hexact.readsWithin hfits

namespace Editor

open RunList

variable {σ : Type} [Store σ] {Q : Nat → Prop} {e : Editor σ}

theorem sound_perform (h : e.overlay.Sound Q) (hQ : ∀ v, e.overlay.width.Fits v → Q v)
    (hreads : Store.ReadsWithin Q e.store) (step : Step σ) :
    (e.perform step).1.overlay.Sound Q ∧
      (e.perform step).1.overlay.width = e.overlay.width ∧
      (e.perform step).1.overlay.length = e.overlay.length ∧
      (e.perform step).1.overlay.history.limit = e.overlay.history.limit := by
  cases step with
  | exchange f => exact ⟨h, rfl, rfl, rfl⟩
  | call c =>
    have hop : (c.onOverlay e.store).ReadsWithin Q := by
      cases c with
      | change pos values record => exact hreads
      | _ => trivial
    change (e.call c).1.overlay.Sound Q ∧ (e.call c).1.overlay.width = _ ∧
      (e.call c).1.overlay.length = _ ∧ (e.call c).1.overlay.history.limit = _
    rw [overlay_call]
    exact ⟨h.run hQ hop, (Overlay.effect_run h hop).frame⟩

/-- **A script keeps the invariant of the overlay,** if the reads of all stores on its way give
allowed values, and no more than asked for. -/
theorem sound_play (h : e.overlay.Sound Q) (hQ : ∀ v, e.overlay.width.Fits v → Q v)
    {steps : List (Step σ)}
    (hreads : ∀ i, Store.ReadsWithin Q (e.play (steps.take i)).store) :
    (e.play steps).overlay.Sound Q ∧
      (e.play steps).overlay.width = e.overlay.width ∧
      (e.play steps).overlay.length = e.overlay.length ∧
      (e.play steps).overlay.history.limit = e.overlay.history.limit := by
  induction steps generalizing e with
  | nil => exact ⟨h, rfl, rfl, rfl⟩
  | cons step steps ih =>
    obtain ⟨hsound, hwidth, hlength, hlimit⟩ := sound_perform h hQ (hreads 0) step
    obtain ⟨hsound', hwidth', hlength', hlimit'⟩ :=
      ih hsound (by rwa [hwidth]) fun i => hreads (i + 1)
    exact ⟨hsound', hwidth'.trans hwidth, hlength'.trans hlength, hlimit'.trans hlimit⟩

/-- **A view of an exact store** is the elements up to the end of the store with the runs over them,
however long the overlay is. -/
theorem view_eq_of_exact {contents : List Nat} (h : Canonical e.overlay.runs)
    (hexact : Store.Exact e.store contents) (offset count : Nat) : e.view offset count =
      if contents.length < offset then .error (.outOfRange offset contents.length)
      else .ok (((e.overlay.runs.overlaid contents).drop offset).take count) := by
  unfold view
  rw [hexact.length_eq]
  simp only
  split_ifs with hoffset
  · rfl
  · have hread : Store.read e.store offset (min count (contents.length - offset)) = .ok _ :=
      hexact.read_eq_ok_iff.mpr ⟨by omega, rfl⟩
    have hcount : ((e.overlay.runs.overlaid contents).drop offset).length =
        contents.length - offset := by rw [List.length_drop, length_overlaid]
    rw [hread, bind_ok, Overlay.apply, Option.getD_none, h.apply_slice, List.drop_take,
      Nat.add_sub_cancel_left, ← hcount, ← List.take_eq_take_min]
    rfl

end Editor
end EditOverlay
