import EditOverlay.Proofs.Overlay.Change

/-! # Overlays: reads that come out short

A store may answer a read with fewer elements than asked for. A single element is then refused, but
a range is shown as far as the read goes, and so the entry of a recorded change may keep less than
the change replaces. An undo brings back what was read and leaves the other new values where they
are (`undo_restores_what_was_read`, `undo_leaves_new_value`). -/

namespace EditOverlay.Overlay

open RunList

variable {σ : Type} [Store σ] {o o' : Overlay} {s : σ} {pos : Nat} {values : List Nat}

theorem exists_entries_push {h : History} (hlimit : 1 ≤ h.limit) (e : UndoEntry) :
    ∃ rest, (h.push e).entries = e :: rest := by
  obtain ⟨n, hn⟩ := Nat.exists_eq_add_of_le hlimit
  refine ⟨h.entries.take n, ?_⟩
  rw [History.push, hn, Nat.add_comm, List.take_succ_cons]

/-- **An undo restores what was read.** Take a recorded change of an overlay that operations led to,
with a store that may answer with fewer elements than asked for. The newest entry keeps as many
values as the read of the range gave elements. An undo right after the change shows at the positions
of these elements what was there before, as far as single reads agree with that of the range; at the
other positions of the change it leaves the new values. Likewise a range is shown with as many
values as the read of it gives elements. -/
theorem undo_restores_what_was_read (h : Reachable (fun _ => True) o) (hlimit : 1 ≤ o.history.limit)
    (hs : Store.ReadsWithin (fun _ => True) s) (hne : values ≠ [])
    (hchange : o.change s pos values true = .ok o') :
    (∃ elements previous, Store.read s pos values.length = .ok elements ∧
      o'.history.entries.head? = some ⟨pos, previous⟩ ∧ previous.length = elements.length ∧
      o'.undo.1 = pos ∧
      (∀ k x, elements[k]? = some x →
        o'.undo.2.value s (pos + k) = .ok ((o.runs.valueAt? (pos + k)).getD x)) ∧
      (∀ k x, elements[k]? = some x → Store.read s (pos + k) 1 = .ok [x] →
        o'.undo.2.value s (pos + k) = o.value s (pos + k)) ∧
      ∀ k v, elements.length ≤ k → values[k]? = some v → o'.undo.2.value s (pos + k) = .ok v) ∧
    ∀ offset count xs, o.values s offset count = .ok xs →
      ∃ elements, Store.read s offset count = .ok elements ∧ xs.length = elements.length := by
  have hcanonical : Canonical o.runs := (h.sound fun _ _ => trivial).canonical
  obtain ⟨hwidth, ⟨hrange, -⟩, -⟩ := change_eq_ok hchange
  have hrange' : pos + values.length ≤ o.length := hrange
  obtain ⟨-, hlength⟩ := frame_change hchange
  obtain ⟨previous, hprevious, hhistory⟩ := history_of_recorded hchange hne
  obtain ⟨elements, hread, hsame, hshown⟩ := values_of_read hcanonical hprevious
  have hshort : elements.length ≤ values.length := (hs _ _ _ hread).1
  obtain ⟨rest, hentries⟩ := exists_entries_push hlimit ⟨pos, previous⟩
  rw [← hhistory] at hentries
  obtain ⟨hposition, -, -⟩ := valueAt?_undo hentries
  obtain ⟨hback, helsewhere, -⟩ := value_undo s hentries (by simp only; omega)
  have hrestored : ∀ k x, elements[k]? = some x →
      o'.undo.2.value s (pos + k) = .ok ((o.runs.valueAt? (pos + k)).getD x) := by
    intro k x hx
    exact hback k _ (by rw [hshown, hx, Option.map_some])
  refine ⟨⟨elements, previous, hread, by rw [hentries, List.head?_cons], hsame, hposition,
    hrestored, fun k x hx hsingle => ?_, fun k v hk hv => ?_⟩, fun offset count xs hvalues => ?_⟩
  · have hlt := (List.getElem?_eq_some_iff.mp hx).1
    rw [hrestored k x hx, value_eq_ok hwidth.symm (by omega) hsingle]
  · have hlt := (List.getElem?_eq_some_iff.mp hv).1
    rw [helsewhere (pos + k) (Or.inr (by simp only; omega))]
    refine value_of_valueAt? s (by omega) ?_
    rw [valueAt?_change hchange, overridden, if_pos ⟨by omega, by omega⟩, Nat.add_sub_cancel_left,
      hv]
  · obtain ⟨elements, hread, hlen, -⟩ := values_of_read hcanonical hvalues
    exact ⟨elements, hread, hlen⟩

/-- Reads of one element at the most: of a change of three elements, of which one had been changed
before, the undo brings back the first and leaves the others. -/
theorem undo_restores_what_was_read_one :
    let s : Faulty MemoryStore := ⟨⟨.w8, [10, 11, 12, 13]⟩, ⟨[], [], some 1⟩⟩
    let o := (withLimit .w8 4 4).after [.change s 2 [5] true]
    let o' : Overlay := ⟨.w8, 4, [⟨1, [7, 7, 7]⟩], ⟨[⟨1, [11]⟩, ⟨2, [12]⟩], 4, 0⟩⟩
    Reachable (fun _ => True) o ∧ 1 ≤ o.history.limit ∧ Store.ReadsWithin (fun _ => True) s ∧
      o.change s 1 [7, 7, 7] true = .ok o' ∧ Store.read s 1 3 = .ok [11] ∧
      o'.undo.2.value s (1 + 0) = o.value s (1 + 0) ∧ o'.undo.2.value s (1 + 1) = .ok 7 ∧
      o'.undo.2.value s (1 + 2) = .ok 7 := by
  intro s o o'
  have hs : Store.ReadsWithin (fun _ => True) s :=
    Faulty.readsWithin (s.store.exact.readsWithin fun _ _ => trivial)
  have hreach : Reachable (fun _ => True) o := by
    refine ⟨.w8, 4, 4, _, ?_, rfl⟩
    simp only [List.forall_mem_cons]
    exact ⟨hs, by simp⟩
  have hlimit : 1 ≤ o.history.limit := by decide
  have hchange : o.change s 1 [7, 7, 7] true = .ok o' := by decide
  have hone : Store.read s 1 3 = .ok [11] := by decide
  obtain ⟨⟨elements, previous, hread, -, -, -, -, hback, hleft⟩, -⟩ :=
    undo_restores_what_was_read hreach hlimit hs (List.cons_ne_nil 7 [7, 7]) hchange
  obtain rfl : [11] = elements := Except.ok.inj (hone.symm.trans hread)
  exact ⟨hreach, hlimit, hs, hchange, hone, hback 0 11 rfl (by decide), hleft 1 7 (by decide) rfl,
    hleft 2 7 (by decide) rfl⟩

/-- **An undo leaves a new value.** The store answers a read of two elements with one, and the
change of both succeeds. The entry keeps one value, so after the undo the second position still
shows the new value, although a read of that element alone gives the old one. A range of two is
shown with one value. -/
theorem undo_leaves_new_value :
    let s : Faulty MemoryStore := ⟨MemoryStore.zeroed .w8 4, ⟨[], [], some 1⟩⟩
    let o := withLimit .w8 4 4
    let o' : Overlay := ⟨.w8, 4, [⟨0, [7, 7]⟩], ⟨[⟨0, [0]⟩], 4, 0⟩⟩
    o.change s 0 [7, 7] true = .ok o' ∧ o'.history.entries.map (·.previous.length) = [1] ∧
      o.value s 1 = .ok 0 ∧ o'.undo.2.value s 1 = .ok 7 ∧ o.values s 0 2 = .ok [0] := by
  decide

end EditOverlay.Overlay
