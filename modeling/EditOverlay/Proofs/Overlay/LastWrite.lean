import EditOverlay.Proofs.Overlay.Invariant

/-! # Overlays: the last write wins

The runs of an overlay stand for a partial map from positions to values. For each operation this
says what becomes of the map: a change, an undo and a block put back override it on exactly their
positions (`overridden`), and the first run that is taken out is its first block (`FirstBlock`).
What an overlay shows of a store is the map where it is defined and the store elsewhere. All of this
together is `last_write_wins`. -/

namespace EditOverlay.Overlay

open RunList

variable {σ : Type} [Store σ] {o o' : Overlay} {pos : Nat} {values : List Nat}

/-- The map with `values` at the positions from `pos` on, and as before elsewhere. -/
def overridden (pos : Nat) (values : List Nat) (changed : Nat → Option Nat) (p : Nat) :
    Option Nat :=
  if pos ≤ p ∧ p < pos + values.length then values[p - pos]? else changed p

/-- The run is the first block of the map: it has its values, and can be extended on neither side;
before it, the map is not defined at all. -/
structure FirstBlock (changed : Nat → Option Nat) (r : Run) : Prop where
  nonempty : r.values ≠ []
  values_eq : ∀ p, r.start ≤ p → p < r.stop → changed p = r.values[p - r.start]?
  before : ∀ p < r.start, changed p = none
  behind : changed r.stop = none

theorem valueAt?_merge_eq_overridden (o : Overlay) (pos : Nat) (values : List Nat) (p : Nat) :
    (o.merge pos values).runs.valueAt? p = overridden pos values o.runs.valueAt? p := by
  rw [valueAt?_merge, Run.valueAt?_mk, overridden]
  split_ifs with hp
  · rw [List.getElem?_eq_getElem (show p - pos < values.length by omega)]
    rfl
  · rfl

/-! ### Changing -/

/-- **A change overrides the map** on its positions, recorded or not. -/
theorem valueAt?_change {s : σ} {record : Bool} (h : o.change s pos values record = .ok o')
    (p : Nat) : o'.runs.valueAt? p = overridden pos values o.runs.valueAt? p := by
  obtain ⟨-, -, ⟨-, rfl⟩ | ⟨-, -, previous, -, rfl⟩⟩ := change_eq_ok h
  · exact valueAt?_merge_eq_overridden o pos values p
  · exact valueAt?_merge_eq_overridden _ pos values p

theorem valueAt?_requeue (h : o.requeue pos values = .ok o') (p : Nat) :
    o'.runs.valueAt? p = overridden pos values o.runs.valueAt? p := by
  obtain ⟨-, rfl⟩ := requeue_eq_ok_iff.mp h
  exact valueAt?_merge_eq_overridden o pos values p

theorem valueAt?_undo {e : UndoEntry} {rest : List UndoEntry}
    (h : o.history.entries = e :: rest) :
    o.undo.1 = e.position ∧ o.undo.2.history.entries = rest ∧
      ∀ p, o.undo.2.runs.valueAt? p = overridden e.position e.previous o.runs.valueAt? p := by
  rw [undo_of_entries_eq_cons h]
  refine ⟨rfl, by rw [merge_history], fun p => ?_⟩
  rw [valueAt?_merge_eq_overridden]

/-! ### The first block -/

theorem exists_valueAt?_of_mem {runs : RunList} (h : Canonical runs) {r : Run} (hr : r ∈ runs) :
    ∃ p v, runs.valueAt? p = some v := by
  have hfirst : (r.valueAt? r.start).isSome :=
    Run.isSome_valueAt? (le_refl _) (Run.start_lt_stop (h.nonempty r hr))
  by_contra hnone
  have hall : ∀ s ∈ runs, s.valueAt? r.start = none := by
    refine List.findSome?_eq_none_iff.mp ?_
    refine Option.eq_none_iff_forall_ne_some.mpr fun v hv => hnone ⟨r.start, v, hv⟩
  rw [hall r hr] at hfirst
  cases hfirst

theorem popFirst_eq_none_iff (h : Canonical o.runs) :
    o.popFirst? = none ↔ ∀ p, o.runs.valueAt? p = none := by
  rcases popFirst_cases o with ⟨hnil, hpop⟩ | ⟨r, rest, hcons, hpop⟩
  · rw [hpop, hnil]
    exact ⟨fun _ _ => rfl, fun _ => rfl⟩
  · rw [hpop]
    refine ⟨fun hsome => (Option.some_ne_none _ hsome).elim, fun hnone => ?_⟩
    obtain ⟨p, v, hv⟩ := exists_valueAt?_of_mem h (r := r) (by rw [hcons]; exact List.mem_cons_self)
    rw [hnone p] at hv
    cases hv

/-- **The first run is the first block of the map,** and elsewhere the map stays without it. -/
theorem firstBlock_of_popFirst {r : Run} (h : Canonical o.runs)
    (hpop : o.popFirst? = some (r, o')) :
    FirstBlock o.runs.valueAt? r ∧
      ∀ p, o'.runs.valueAt? p = if r.start ≤ p ∧ p < r.stop then none else o.runs.valueAt? p := by
  rcases popFirst_cases o with ⟨-, hnone⟩ | ⟨r', rest, hcons, hsome⟩
  · rw [hnone] at hpop
    cases hpop
  rw [hsome] at hpop
  cases hpop
  rw [hcons] at h ⊢
  have houtside : ∀ p, p < r.start ∨ r.stop ≤ p → valueAt? (r :: rest) p = valueAt? rest p := by
    intro p hp
    rw [valueAt?_cons, Run.valueAt?_eq_none_iff.mpr hp, Option.none_or]
  have hstart := r.start_le_stop
  refine ⟨⟨h.nonempty r List.mem_cons_self, fun p h1 h2 => ?_, fun p hp => ?_, ?_⟩, fun p => ?_⟩
  · rw [h.valueAt?_cons, h.valueAt?_tail h2.le, Option.none_or, Run.valueAt?, if_pos h1]
  · rw [houtside p (Or.inl hp), h.valueAt?_tail (by omega)]
  · rw [houtside r.stop (Or.inr (le_refl _)), h.valueAt?_tail (le_refl _)]
  · split_ifs with hp
    · exact h.valueAt?_tail hp.2.le
    · rw [houtside p (by omega)]

/-! ### What is shown -/

theorem value_of_valueAt? (s : σ) {p v : Nat} (hp : p < o.length)
    (hv : o.runs.valueAt? p = some v) : o.value s p = .ok v := by
  unfold value
  rw [if_neg (by omega), hv]

theorem value_congr (s : σ) {p : Nat} (hwidth : o.width = o'.width)
    (hlength : o.length = o'.length) (h : o.runs.valueAt? p = o'.runs.valueAt? p) :
    o.value s p = o'.value s p := by
  unfold value
  rw [hwidth, hlength, h]

theorem frame_undo (o : Overlay) : o.undo.2.width = o.width ∧ o.undo.2.length = o.length := by
  cases h : o.history.entries with
  | nil =>
    rw [undo_of_entries_eq_nil h]
    exact ⟨rfl, rfl⟩
  | cons e rest =>
    rw [undo_of_entries_eq_cons h]
    exact ⟨merge_width _ _ _, merge_length _ _ _⟩

/-- **What an undo brings back is shown,** as a change of its range; elsewhere all is as before. -/
theorem value_undo (s : σ) {e : UndoEntry} {rest : List UndoEntry}
    (h : o.history.entries = e :: rest) (hwithin : e.position + e.previous.length ≤ o.length) :
    (∀ k v, e.previous[k]? = some v → o.undo.2.value s (e.position + k) = .ok v) ∧
      (∀ p, p < e.position ∨ e.position + e.previous.length ≤ p →
        o.undo.2.value s p = o.value s p) ∧
      ∀ p, o.undo.2.isChanged p = true ↔
        o.isChanged p = true ∨ e.position ≤ p ∧ p < e.position + e.previous.length := by
  obtain ⟨-, -, hruns⟩ := valueAt?_undo h
  obtain ⟨hwidth, hlength⟩ := o.frame_undo
  refine ⟨fun k v hv => ?_, fun p hp => ?_, fun p => ?_⟩
  · have hk : k < e.previous.length := (List.getElem?_eq_some_iff.mp hv).1
    refine value_of_valueAt? s (by omega) ?_
    rw [hruns, overridden, if_pos ⟨by omega, by omega⟩, Nat.add_sub_cancel_left, hv]
  · refine value_congr s hwidth hlength ?_
    rw [hruns, overridden, if_neg (by omega)]
  · rw [isChanged, isChanged, hruns, overridden]
    split_ifs with hp
    · rw [List.getElem?_eq_getElem (by omega)]
      exact ⟨fun _ => Or.inr hp, fun _ => rfl⟩
    · exact ⟨Or.inl, fun h => h.resolve_right hp⟩

theorem value_eq_ok {s : σ} (hw : Store.width s = o.width) {p x : Nat} (hp : p < o.length)
    (hread : Store.read s p 1 = .ok [x]) :
    o.value s p = .ok ((o.runs.valueAt? p).getD x) := by
  unfold value
  rw [if_neg (by omega)]
  cases o.runs.valueAt? p with
  | some v => rfl
  | none =>
    simp only
    rw [Width.ensureSame_eq_ok_iff.mpr hw.symm, hread]
    rfl

theorem values_eq_ok_of_read (h : Canonical o.runs) {s : σ} (hw : Store.width s = o.width)
    {offset count : Nat} {xs : List Nat} (hrange : offset + count ≤ o.length)
    (hread : Store.read s offset count = .ok xs) :
    ∃ ys, o.values s offset count = .ok ys ∧
      ∀ i, ys[i]? = xs[i]?.map fun x => (o.runs.valueAt? (offset + i)).getD x := by
  refine ⟨o.apply xs offset none, ?_, fun i => ?_⟩
  · unfold values
    rw [checkRange_eq_ok_iff.mpr ⟨hrange, rfl⟩, Width.ensureSame_eq_ok_iff.mpr hw.symm, hread]
    rfl
  · rw [apply, getElem?_apply h]
    by_cases hi : i < xs.length
    · simp only [Option.getD_none, hi, if_true]
    · rw [List.getElem?_eq_none (by omega)]
      rfl

/-! ### All together -/

/-- **The last write wins.** Wherever operations lead, with stores that may fail but give no more
elements than asked for: a change or a block put back, once it succeeds, overrides the map on
exactly its positions, and an undo does with what its entry has kept; taking out the first run gives
the first block of the map and removes that block only; after a clear the map is nowhere defined.
And what is shown of a store is the map, and elsewhere the element of the store. -/
theorem last_write_wins (h : Reachable (fun _ => True) o) :
    (∀ p, o.isChanged p = (o.runs.valueAt? p).isSome) ∧
      (∀ {σ : Type} [Store σ] (s : σ) pos values record o',
        o.change s pos values record = .ok o' →
          ∀ p, o'.runs.valueAt? p = overridden pos values o.runs.valueAt? p) ∧
      (∀ pos values o', o.requeue pos values = .ok o' →
        ∀ p, o'.runs.valueAt? p = overridden pos values o.runs.valueAt? p) ∧
      (o.history.entries = [] → o.undo = (0, o)) ∧
      (∀ e rest, o.history.entries = e :: rest →
        o.undo.1 = e.position ∧ o.undo.2.history.entries = rest ∧
          ∀ p, o.undo.2.runs.valueAt? p = overridden e.position e.previous o.runs.valueAt? p) ∧
      (o.popFirst? = none ↔ ∀ p, o.runs.valueAt? p = none) ∧
      (∀ r o', o.popFirst? = some (r, o') → FirstBlock o.runs.valueAt? r ∧
        ∀ p, o'.runs.valueAt? p = if r.start ≤ p ∧ p < r.stop then none else o.runs.valueAt? p) ∧
      (∀ p, o.clear.runs.valueAt? p = none) ∧
      ∀ {σ : Type} [Store σ] (s : σ), Store.width s = o.width →
        (∀ p < o.length, ∀ x, Store.read s p 1 = .ok [x] →
          o.value s p = .ok ((o.runs.valueAt? p).getD x)) ∧
        ∀ offset count xs, offset + count ≤ o.length → Store.read s offset count = .ok xs →
          ∃ ys, o.values s offset count = .ok ys ∧
            ∀ i, ys[i]? = xs[i]?.map fun x => (o.runs.valueAt? (offset + i)).getD x := by
  have hcanonical : Canonical o.runs := (h.sound fun _ _ => trivial).canonical
  refine ⟨fun p => rfl, fun s pos values record o' hchange => valueAt?_change hchange,
    fun pos values o' hrequeue => valueAt?_requeue hrequeue, undo_of_entries_eq_nil,
    fun e rest hentries => valueAt?_undo hentries, popFirst_eq_none_iff hcanonical,
    fun r o' hpop => firstBlock_of_popFirst hcanonical hpop, fun p => rfl, fun s hw => ⟨?_, ?_⟩⟩
  · exact fun p hp x hread => value_eq_ok hw hp hread
  · exact fun offset count xs hrange hread => values_eq_ok_of_read hcanonical hw hrange hread

/-- Two runs, one of which an undo has left: the first of them is the first block, and a change that
fills the gap between them makes them one. -/
theorem last_write_wins_gap :
    let s : Faulty MemoryStore := ⟨MemoryStore.zeroed .w8 20, ⟨[0], [], some 2⟩⟩
    let o : Overlay := ⟨.w8, 20, [⟨2, [1, 1]⟩, ⟨6, [0, 0, 3]⟩],
      { entries := [⟨2, [0, 0]⟩], limit := 4, dropped := 0 }⟩
    let o' : Overlay := { o with runs := [⟨2, [1, 1, 9, 9, 0, 0, 3]⟩] }
    Reachable (fun _ => True) o ∧ FirstBlock o.runs.valueAt? ⟨2, [1, 1]⟩ ∧
      o.change s 4 [9, 9] false = .ok o' ∧
      (∀ p, o'.runs.valueAt? p = overridden 4 [9, 9] o.runs.valueAt? p) ∧
      o.value s 8 = .ok 3 ∧ o.value s 9 = .ok 0 := by
  intro s o o'
  have hs : Store.ReadsWithin (fun _ => True) s :=
    Faulty.readsWithin ((MemoryStore.zeroed .w8 20).exact.readsWithin fun _ _ => trivial)
  have hreach : Reachable (fun _ => True) o := by
    refine ⟨.w8, 20, 4, [.change s 2 [1, 1] true, .change s 6 [3, 3, 3] true, .undo], ?_,
      by decide⟩
    simp only [List.forall_mem_cons]
    exact ⟨hs, hs, trivial, by simp⟩
  have hchange : o.change s 4 [9, 9] false = .ok o' := by decide
  obtain ⟨-, hoverride, -, -, -, -, hfirst, -, hshown⟩ := last_write_wins hreach
  obtain ⟨hvalue, -⟩ := hshown s rfl
  refine ⟨hreach, (hfirst ⟨2, [1, 1]⟩ { o with runs := [⟨6, [0, 0, 3]⟩] } (by decide)).1, hchange,
    hoverride s 4 [9, 9] false o' hchange, ?_, ?_⟩
  · exact hvalue 8 (by decide) 0 (by decide)
  · exact hvalue 9 (by decide) 0 (by decide)

end EditOverlay.Overlay
