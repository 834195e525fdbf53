import EditOverlay.Proofs.Overlay.Split
import EditOverlay.Store.Pattern

/-! # Overlays: the run that cannot be written

A commit puts the run back that it cannot write, and this is checked like a new change. An undo is
not checked: from a store that reads values which do not fit it puts such values into a run. So a
run with all values in the width goes back, and any other is lost, with an error that is not the
store's (`commit_keeps_all_iff`, `commit_loses_run`). -/

namespace EditOverlay.Overlay

open RunList

variable {σ : Type} [Store σ] {Q : Nat → Prop} {o : Overlay} {s : σ} {j : Nat} {r : Run}
  {e : EditError}

/-- **What a commit does with the first run that it cannot write:** it goes back, or it is left out
if it has a value that does not fit. -/
theorem Sound.commit_failed_cases (h : Sound Q o) (hw : Store.width s = o.width)
    (hr : o.runs[j]? = some r) (hstops : StopsAt s o.runs j)
    (hfail : writeOutcome s o.runs j = some (.error e)) :
    (o.commit s).store = storeAfter s (o.runs.take (j + 1)) ∧
      ((∀ v ∈ r.values, o.width.Fits v) ∧ (o.commit s).result = .error e ∧
          (o.commit s).overlay = { o with runs := o.runs.drop j } ∨
        ∃ v, r.values.find? (fun v => ¬ o.width.Fits v) = some v ∧
          (o.commit s).result = .error (.valueTooWide v o.width.bits) ∧
          (o.commit s).overlay = { o with runs := o.runs.drop (j + 1) }) := by
  obtain ⟨k, hk, hstore, ⟨hlast, -⟩ | ⟨r', e', hr', hfail', hend⟩⟩ := h.commit_stops hw
  · rw [← hk.unique hstops, hlast, List.getElem?_eq_none le_rfl] at hr
    cases hr
  · obtain rfl : k = j := hk.unique hstops
    rw [hr] at hr'
    rw [hfail] at hfail'
    cases hr'
    cases hfail'
    exact ⟨hstore, hend⟩

theorem valueAt?_of_mem_run (h : Canonical o.runs) (hr : o.runs[j]? = some r) {p : Nat}
    (hstart : r.start ≤ p) (hstop : p < r.stop) :
    valueAt? (o.runs.take j) p = none ∧ valueAt? (o.runs.drop (j + 1)) p = none ∧
      ∃ v, o.runs.valueAt? p = some v := by
  have hdrop : o.runs.drop j = r :: o.runs.drop (j + 1) := by
    rw [List.drop_eq_getElem?_toList_append, hr]
    rfl
  have hcanonical : Canonical (r :: o.runs.drop (j + 1)) := hdrop ▸ h.drop j
  obtain ⟨v, hv⟩ := Option.isSome_iff_exists.mp (Run.isSome_valueAt? hstart hstop)
  have hbehind := hcanonical.valueAt?_tail hstop.le
  have hhere : valueAt? (o.runs.drop j) p = some v := by
    rw [hdrop, valueAt?_cons, hv, Option.some_or]
  have hboth : Canonical (o.runs.take j ++ o.runs.drop j) := by rwa [List.take_append_drop]
  refine ⟨hboth.valueAt?_eq_none hhere, hbehind, v, ?_⟩
  rw [h.valueAt?_take_drop j, hhere, Option.some_or]

/-- **A failed commit keeps every change exactly if the run that cannot be written fits.**
Operations may have led to the overlay over stores that read any values. If the writes of the runs
before `r` succeed and that of `r` fails, and a write that fails changes nothing, then the store
holds the runs before `r`. The commit gives the store's error and every change is in these runs or
still there, if and only if all values of `r` fit. Otherwise the error names the first one that does
not; `r` alone is left out, so its positions are not changed any more, and the store holds there
what it did. -/
theorem commit_keeps_all_iff (h : Reachable (fun _ => True) o) {held : σ → Nat → Option Nat}
    (hheld : Store.WritesExactly held) (hw : Store.width s = o.width) (hr : o.runs[j]? = some r)
    (hwritten : ∀ i < j, writeOutcome s o.runs i = some (.ok ()))
    (hfail : writeOutcome s o.runs j = some (.error e)) :
    let c := o.commit s
    (∀ p, held c.store p = (valueAt? (o.runs.take j) p).or (held s p)) ∧
      ((c.result = .error e ∧ ∀ p v, o.runs.valueAt? p = some v →
          valueAt? (o.runs.take j) p = some v ∨ c.overlay.runs.valueAt? p = some v) ↔
        ∀ v ∈ r.values, o.width.Fits v) ∧
      ∀ v, r.values.find? (fun v => ¬ o.width.Fits v) = some v →
        c.result = .error (.valueTooWide v o.width.bits) ∧
          c.overlay = { o with runs := o.runs.drop (j + 1) } ∧
          ∀ p, r.start ≤ p → p < r.stop →
            o.isChanged p = true ∧ c.overlay.isChanged p = false ∧ held c.store p = held s p := by
  intro c
  have hs : Sound (fun _ => True) o := h.sound fun _ _ => trivial
  have hstops : StopsAt s o.runs j := ⟨hwritten, Or.inr ⟨e, hfail⟩⟩
  obtain ⟨hstore, hcases⟩ := hs.commit_failed_cases hw hr hstops hfail
  have hholds : ∀ p, held c.store p = (valueAt? (o.runs.take j) p).or (held s p) := by
    rw [show c.store = _ from hstore]
    exact held_storeAfter_take hheld hs.canonical hstops
  have hsplit := hs.canonical.valueAt?_take_drop j
  refine ⟨hholds, ?_, fun v hv => ?_⟩
  · rcases hcases with ⟨hfits, hresult, hoverlay⟩ | ⟨v, hv, -, hoverlay⟩
    · refine iff_of_true ⟨hresult, fun p v hvalue => ?_⟩ hfits
      rw [show c.overlay = _ from hoverlay]
      rw [hsplit, Option.or_eq_some_iff] at hvalue
      rcases hvalue with hkept | ⟨-, hwritten⟩
      · exact Or.inr hkept
      · exact Or.inl hwritten
    · -- the first position of the run is in neither part
      have hwide := List.find?_some hv
      have hmem := List.mem_of_find?_eq_some hv
      refine iff_of_false (fun hkeeps => ?_) fun hfits => by simp [hfits v hmem] at hwide
      obtain ⟨hbefore, hbehind, u, hu⟩ := valueAt?_of_mem_run hs.canonical hr le_rfl
        (Run.start_lt_stop (List.ne_nil_of_mem hmem))
      rcases hkeeps.2 _ u hu with hfirst | hrest
      · rw [hbefore] at hfirst
        cases hfirst
      · rw [show c.overlay = _ from hoverlay, hbehind] at hrest
        cases hrest
  · rcases hcases with ⟨hfits, -⟩ | ⟨v', hv', hresult, hoverlay⟩
    · have hwide := List.find?_some hv
      simp [hfits v (List.mem_of_find?_eq_some hv)] at hwide
    · rw [hv] at hv'
      cases hv'
      refine ⟨hresult, hoverlay, fun p hstart hstop => ?_⟩
      obtain ⟨hbefore, hbehind, u, hu⟩ := valueAt?_of_mem_run hs.canonical hr hstart hstop
      refine ⟨by rw [isChanged, hu]; rfl, ?_, ?_⟩
      · rw [isChanged, show c.overlay = _ from hoverlay, hbehind]
        rfl
      · rw [hholds, hbefore, Option.none_or]

/-- A commit of three runs whose second write fails: an undo has put a value into that run which
does not fit, so the run is left out, and the third one stays. -/
theorem commit_keeps_all_iff_second_write :
    let s : Faulty PatternStore := ⟨⟨.w8, 300, 300, []⟩, ⟨[], [256], none⟩⟩
    let o := (withLimit .w8 300 4).after
      [.change s 10 [5] false, .change s 256 [1] true, .undo, .change s 280 [9] false]
    o.runs = [⟨10, [5]⟩, ⟨256, [256]⟩, ⟨280, [9]⟩] ∧
      ¬ ((o.commit s).result = .error (.writeFailed 256 "write fault") ∧
        ∀ p v, o.runs.valueAt? p = some v →
          valueAt? (o.runs.take 1) p = some v ∨ (o.commit s).overlay.runs.valueAt? p = some v) ∧
      (o.commit s).result = .error (.valueTooWide 256 8) ∧
      (o.commit s).overlay.runs = [⟨280, [9]⟩] ∧
      (o.commit s).store.store.log = [(10, [5])] := by
  intro s o
  have hs : Store.ReadsWithin (fun _ => True) s :=
    Faulty.readsWithin (s.store.exact.readsWithin fun _ _ => trivial)
  have hreach : Reachable (fun _ => True) o := by
    refine ⟨.w8, 300, 4, _, ?_, rfl⟩
    simp only [List.forall_mem_cons]
    exact ⟨hs, hs, trivial, hs, by simp⟩
  obtain ⟨-, hkeeps, hwide⟩ := commit_keeps_all_iff hreach
    (Faulty.writesExactly PatternStore.writesExactly) (s := s) (j := 1) (r := ⟨256, [256]⟩)
    (e := .writeFailed 256 "write fault") rfl (by decide) (by decide) (by decide)
  obtain ⟨hresult, hoverlay, -⟩ := hwide 256 (by decide)
  have hnot : ¬ Width.w8.Fits 256 := by decide
  refine ⟨by decide, fun hall => hnot (hkeeps.mp hall 256 List.mem_cons_self), hresult, ?_,
    by decide⟩
  rw [show (o.commit s).overlay = _ from hoverlay]
  decide

/-- **A failed commit drops an edit.** The store gives as many elements as asked for, and a write to
it that fails changes nothing. A change is recorded and taken back, so that its place is changed to
the element that the store has there, which does not fit. The write of this run fails, and the
commit gives another error than the store; the place is not changed any more, nor was it written. -/
theorem commit_loses_run :
    let s : Faulty PatternStore := ⟨⟨.w8, 300, 300, []⟩, ⟨[], [256], none⟩⟩
    let o := (withLimit .w8 300 4).after [.change s 256 [1] true, .undo]
    let c := o.commit s
    Store.ReadsFully s ∧ Store.WritesExactly (fun f : Faulty PatternStore => f.store.written) ∧
      Store.width s = o.width ∧
      (Store.write s 256 [256]).2 = .error (.writeFailed 256 "write fault") ∧
      o.runs.valueAt? 256 = some 256 ∧
      c.result = .error (.valueTooWide 256 8) ∧ c.overlay.isChanged 256 = false ∧
      c.store.store.written 256 = none := by
  intro s o c
  have hreads : Store.ReadsFully s := by
    intro offset count xs hread
    refine s.store.exact.readsFully offset count xs ?_
    change s.read offset count = _ at hread
    unfold Faulty.read at hread
    rw [if_neg (by simp [s])] at hread
    obtain ⟨ys, hys, rfl⟩ := map_eq_ok.mp hread
    exact hys
  exact ⟨hreads, Faulty.writesExactly PatternStore.writesExactly, by decide, by decide, by decide,
    by decide, by decide, by decide⟩

end EditOverlay.Overlay
