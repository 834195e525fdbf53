import EditOverlay.Proofs.Editor.Shown

/-! # Editors: reading

An editor over a store whose reads stay exact reads ranges, single elements and views alike, also
after saves that fail and whatever such a save does to the elements of the store (`reads_agree`).

The invariant behind this, `Aligned`, is weaker than `Sound`: it says nothing on which elements the
store holds, so these may change, and they need not fit the width. -/

namespace EditOverlay.Editor

variable {σ : Type} [Store σ] {sound : σ → Prop} {e : Editor σ}

/-- The overlay is one for stores of the width and length that the store has. -/
structure Aligned (sound : σ → Prop) (e : Editor σ) : Prop where
  store : sound e.store
  width_eq : Store.width e.store = e.overlay.width
  length_eq : Store.length e.store = e.overlay.length
  overlay : e.overlay.Sound fun _ => True

theorem aligned_withLimit {s : σ} (hs : sound s) (limit : Nat) :
    Aligned sound (withLimit s limit) := ⟨hs, rfl, rfl, Overlay.sound_withLimit _ _ _ _⟩

namespace Aligned

theorem exists_laidOver (hlaw : Store.StaysExact sound) (h : Aligned sound e) :
    ∃ contents, contents.length = e.overlay.length ∧ e.overlay.LaidOver e.store contents := by
  obtain ⟨contents, hexact⟩ := hlaw.exact h.store
  have hlength : contents.length = e.overlay.length := by rw [← hexact.length_eq, h.length_eq]
  exact ⟨contents, hlength, hexact, h.width_eq, hlength.symm, h.overlay.canonical⟩

/-! ### The invariant is kept -/

/-- **An operation keeps the store exact,** and its width and length: if it writes at all, it writes
runs, and these are inside. -/
theorem store_run (hlaw : Store.StaysExact sound) (h : Aligned sound e) (op : Operation) :
    sound (op.run e).store ∧ Store.width (op.run e).store = Store.width e.store ∧
      Store.length (op.run e).store = Store.length e.store := by
  by_cases hsave : op = .save
  · obtain ⟨k, hk⟩ := Overlay.exists_commit_store h.overlay.canonical e.store
    have hstore : (op.run e).store = Overlay.storeAfter e.store (e.overlay.runs.take k) := by
      rw [hsave]
      exact hk
    rw [hstore]
    refine hlaw.storeAfter h.store fun r hr => ?_
    rw [h.length_eq]
    exact (h.overlay.runs_within r (List.mem_of_mem_take hr)).1
  · rw [Editor.store_run e hsave]
    exact ⟨h.store, rfl, rfl⟩

theorem run (hlaw : Store.StaysExact sound) (h : Aligned sound e) (op : Operation) :
    Aligned sound (op.run e) ∧ (op.run e).overlay.length = e.overlay.length := by
  obtain ⟨contents, hexact⟩ := hlaw.exact h.store
  have hreads : Store.ReadsWithin (fun _ => True) e.store := hexact.readsWithin fun _ _ => trivial
  obtain ⟨hoverlay, hwidth, hlength⟩ :=
    sound_overlay_run h.overlay (fun _ _ => trivial) hreads op
  obtain ⟨hstore, hwidth', hlength'⟩ := h.store_run hlaw op
  refine ⟨⟨hstore, ?_, ?_, hoverlay⟩, hlength⟩
  · rw [hwidth', hwidth, h.width_eq]
  · rw [hlength', hlength, h.length_eq]

theorem after (hlaw : Store.StaysExact sound) (h : Aligned sound e) (ops : List Operation) :
    Aligned sound (e.after ops) ∧ (e.after ops).overlay.length = e.overlay.length := by
  induction ops generalizing e with
  | nil => exact ⟨h, rfl⟩
  | cons op ops ih =>
    obtain ⟨hrun, hlength⟩ := h.run hlaw op
    obtain ⟨hafter, hlength'⟩ := ih hrun
    exact ⟨hafter, hlength'.trans hlength⟩

end Aligned

/-! ### All together -/

/-- **All ways of reading agree.** After any operations on an editor over a store whose reads stay
exact, whichever writes of the saves fail: a range is read exactly if it is inside the store, and
then element by element; so is a single element; a view is the range up to the end of the store, if
it starts there or before; a range is read part by part; and only changed elements differ from those
of the store. -/
theorem reads_agree (hlaw : Store.StaysExact sound) {s : σ} (hs : sound s) (limit : Nat)
    (ops : List Operation) :
    let e := (withLimit s limit).after ops
    let length := Store.length s
    (∀ offset count, (∃ xs, e.values offset count = .ok xs) ↔ offset + count ≤ length) ∧
      (∀ offset count xs, e.values offset count = .ok xs → xs.length = count ∧
        ∀ i < count, ∃ v, xs[i]? = some v ∧ e.value (offset + i) = .ok v) ∧
      (∀ p, (∃ v, e.value p = .ok v) ↔ p < length) ∧
      (∀ offset count, ((∃ xs, e.view offset count = .ok xs) ↔ offset ≤ length) ∧
        (offset ≤ length →
          e.view offset count = e.values offset (min count (length - offset)))) ∧
      (∀ offset m n zs, e.values offset (m + n) = .ok zs →
        ∃ xs ys, e.values offset m = .ok xs ∧ e.values (offset + m) n = .ok ys ∧ zs = xs ++ ys) ∧
      ∀ p < length, ∃ x v, Store.read e.store p 1 = .ok [x] ∧ e.value p = .ok v ∧
        (v ≠ x → e.overlay.isChanged p = true) := by
  intro e length
  obtain ⟨haligned, hlength⟩ := (aligned_withLimit hs limit).after hlaw ops
  obtain ⟨contents, hcontents, hlaid⟩ := haligned.exists_laidOver hlaw
  have hsame : contents.length = length := hcontents.trans hlength
  rw [← hsame]
  refine ⟨fun offset count => hlaid.exists_values_iff,
    fun offset count xs hvalues => hlaid.length_and_value_of_values hvalues,
    fun p => hlaid.exists_value_iff, fun offset count => ?_,
    fun offset m n zs hvalues => hlaid.values_append hvalues,
    fun p hp => hlaid.exists_read_and_value hp⟩
  have hview := view_eq_values hlaid offset count
  refine ⟨⟨fun ⟨xs, hxs⟩ => ?_, fun hoffset => ?_⟩, fun hoffset => ?_⟩
  · by_contra hbehind
    rw [hview, if_pos (by omega)] at hxs
    cases hxs
  · rw [hview, if_neg (by omega)]
    exact hlaid.exists_values_iff.mpr (by omega)
  · rw [hview, if_neg (by omega)]

/-- Three changes of which the last is taken back, and a save whose second write fails: the first
element is in the store, and the others are read through the overlay. -/
theorem reads_agree_partial_save :
    let s : Unsteady MemoryStore := ⟨⟨.w8, [1, 2, 3, 4, 5, 6, 7, 8]⟩,
      fun k => if k = 1 then some (.writeFailed 4 "full") else none, 0⟩
    let e := (withLimit s 2).after [.change 0 [9], .change 4 [8, 8], .change 7 [0], .undo, .save]
    s.store.Sound ∧ e.store.store.elements = [9, 2, 3, 4, 5, 6, 7, 8] ∧
      e.overlay.runs = [⟨4, [8, 8]⟩, ⟨7, [8]⟩] ∧ (∃ xs, e.values 8 0 = .ok xs) ∧
      (¬ ∃ xs, e.values 3 6 = .ok xs) ∧ e.view 5 9 = e.values 5 3 ∧
      (∃ xs ys, e.values 3 2 = .ok xs ∧ e.values 5 3 = .ok ys ∧ [4, 8, 8, 7, 8] = xs ++ ys) ∧
      ∃ x v, Store.read e.store 4 1 = .ok [x] ∧ e.value 4 = .ok v ∧
        (v ≠ x → e.overlay.isChanged 4 = true) := by
  intro s e
  have hlaw : Store.StaysExact fun u : Unsteady MemoryStore => u.store.Sound :=
    (Unsteady.lawful MemoryStore.lawful).staysExact
  have hs : s.store.Sound := by
    change ∀ v ∈ [1, 2, 3, 4, 5, 6, 7, 8], Width.w8.Fits v
    decide
  obtain ⟨hrange, -, -, hview, happend, hown⟩ := reads_agree hlaw hs 2
    [.change 0 [9], .change 4 [8, 8], .change 7 [0], .undo, .save]
  refine ⟨hs, by decide, by decide, (hrange 8 0).mpr (by decide), ?_, (hview 5 9).2 (by decide),
    happend 3 2 3 [4, 8, 8, 7, 8] (by decide), hown 4 (by decide)⟩
  rw [hrange 3 6]
  decide

end EditOverlay.Editor
