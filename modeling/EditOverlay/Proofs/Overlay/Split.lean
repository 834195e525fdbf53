import EditOverlay.Proofs.Overlay.Change
import EditOverlay.Proofs.Store.Writes

/-! # Overlays: a commit splits the runs at the first failure

The writes of a commit stop at one index, that of the first failure or of the end (`StopsAt`,
`Sound.commit_stops`). If all values of the runs fit, a run that cannot be written always goes back,
so there the list of runs is cut in two (`Sound.commit_cases`): the runs before are in the store
(`held_storeAfter_take`), the others are still in the overlay. Nothing is lost and nothing is
written twice; a later commit writes the rest (`commit_split`). -/

namespace EditOverlay.Overlay

open RunList

variable {σ : Type} [Store σ] {Q : Nat → Prop} {o : Overlay}

/-! ### Where the writes stop -/

/-- The writes of the runs succeed up to the index `j`, and there they stop: either the next one
fails, or there is none. -/
structure StopsAt (s : σ) (runs : RunList) (j : Nat) : Prop where
  written : ∀ i < j, writeOutcome s runs i = some (.ok ())
  stop : j = runs.length ∨ ∃ e, writeOutcome s runs j = some (.error e)

namespace StopsAt

variable {s : σ} {runs : RunList} {i j : Nat}

theorem not_written (h : StopsAt s runs j) : writeOutcome s runs j ≠ some (.ok ()) := by
  intro hok
  rcases h.stop with hj | ⟨e, hfail⟩
  · rw [writeOutcome_eq_none_iff.mpr hj.ge] at hok
    cases hok
  · rw [hfail] at hok
    cases hok

theorem le_length (h : StopsAt s runs j) : j ≤ runs.length := by
  rcases h.stop with hj | ⟨e, hfail⟩
  · exact hj.le
  · by_contra hlt
    rw [writeOutcome_eq_none_iff.mpr (by omega)] at hfail
    cases hfail

theorem unique (hi : StopsAt s runs i) (hj : StopsAt s runs j) : i = j := by
  rcases Nat.lt_trichotomy i j with hlt | heq | hgt
  · exact absurd (hj.written i hlt) hi.not_written
  · exact heq
  · exact absurd (hi.written j hgt) hj.not_written

end StopsAt

theorem validate_eq_error_of_stop_le {r : Run} {e : EditError} (hin : r.stop ≤ o.length)
    (h : o.validate r.start r.values = .error e) :
    ∃ v, r.values.find? (fun v => ¬ o.width.Fits v) = some v ∧
      e = .valueTooWide v o.width.bits := by
  have hstop : r.start + r.values.length ≤ o.length := hin
  rw [validate_eq_refuse, refuse_eq_error_iff, blockObjections, if_neg (by omega),
    if_neg (by omega), List.nil_append, List.nil_append, Width.valueObjections, List.head?_map,
    List.head?_filter, Option.map_eq_some_iff] at h
  obtain ⟨v, hv, rfl⟩ := h
  exact ⟨v, hv, rfl⟩

/-- **Where a commit stops.** If that is at a run, its write has failed: the run goes back, or it is
left out if it has a value that does not fit. -/
theorem Sound.commit_stops (h : Sound Q o) {s : σ} (hw : Store.width s = o.width) :
    ∃ j, StopsAt s o.runs j ∧ (o.commit s).store = storeAfter s (o.runs.take (j + 1)) ∧
      (j = o.runs.length ∧ (o.commit s).overlay = { o with runs := [] } ∧
          (o.commit s).result = .ok ⟨o.runs.length, (o.runs.map Run.length).sum⟩ ∨
        ∃ r e, o.runs[j]? = some r ∧ writeOutcome s o.runs j = some (.error e) ∧
          ((∀ v ∈ r.values, o.width.Fits v) ∧ (o.commit s).result = .error e ∧
              (o.commit s).overlay = { o with runs := o.runs.drop j } ∨
            ∃ v, r.values.find? (fun v => ¬ o.width.Fits v) = some v ∧
              (o.commit s).result = .error (.valueTooWide v o.width.bits) ∧
              (o.commit s).overlay = { o with runs := o.runs.drop (j + 1) })) := by
  rw [commit_of_width_eq hw]
  obtain ⟨j, hok, hstore, ⟨hj, hoverlay, hresult⟩ | ⟨r, rest, e, hdrop, hfail, hend⟩⟩ :=
    commitRuns_cases o h.canonical s ⟨0, 0⟩
  · refine ⟨j, ⟨hok, Or.inl hj⟩, hstore, Or.inl ⟨hj, hoverlay, ?_⟩⟩
    rw [hresult, Nat.zero_add, Nat.zero_add]
  · have hr : o.runs[j]? = some r := by
      rw [← List.head?_drop, hdrop, List.head?_cons]
    have hrest : rest = o.runs.drop (j + 1) := by
      rw [← List.tail_drop, hdrop, List.tail_cons]
    refine ⟨j, ⟨hok, Or.inr ⟨e, hfail⟩⟩, hstore, Or.inr ⟨r, e, hr, hfail, ?_⟩⟩
    rcases hend with ⟨hwithin, hoverlay, hresult⟩ | ⟨e', hinvalid, hoverlay, hresult⟩
    · exact Or.inl ⟨hwithin.2, hresult, by rw [hoverlay, hdrop]⟩
    · have hin := (h.runs_within r (List.mem_of_getElem? hr)).1
      obtain ⟨v, hv, rfl⟩ := validate_eq_error_of_stop_le hin hinvalid
      exact Or.inr ⟨v, hv, hresult, by rw [hoverlay, hrest]⟩

/-- **The two parts of a commit:** the runs before the index at which the writes stop are written,
the others are left, and the outcome tells whether there are any. -/
theorem Sound.commit_cases (h : Sound o.width.Fits o) {s : σ} (hw : Store.width s = o.width) :
    ∃ j, StopsAt s o.runs j ∧ (o.commit s).store = storeAfter s (o.runs.take (j + 1)) ∧
      (o.commit s).overlay = { o with runs := o.runs.drop j } ∧
      (j = o.runs.length ∧
          (o.commit s).result = .ok ⟨o.runs.length, (o.runs.map Run.length).sum⟩ ∨
        ∃ e, writeOutcome s o.runs j = some (.error e) ∧ (o.commit s).result = .error e) := by
  obtain ⟨j, hstops, hstore, ⟨hj, hoverlay, hresult⟩ | ⟨r, e, hr, hfail, hend⟩⟩ := h.commit_stops hw
  · exact ⟨j, hstops, hstore, by rw [hoverlay, hj, List.drop_length], Or.inl ⟨hj, hresult⟩⟩
  · have hfits := (h.runs_within r (List.mem_of_getElem? hr)).2
    rcases hend with ⟨-, hresult, hoverlay⟩ | ⟨v, hv, -⟩
    · exact ⟨j, hstops, hstore, hoverlay, Or.inr ⟨e, hfail, hresult⟩⟩
    · have hwide := List.find?_some hv
      simp [hfits v (List.mem_of_find?_eq_some hv)] at hwide

/-! ### What is in the store -/

theorem held_storeAfter {held : σ → Nat → Option Nat} (hheld : Store.WritesExactly held)
    {runs : RunList} (h : Canonical runs) (s : σ)
    (hok : ∀ i < runs.length, writeOutcome s runs i = some (.ok ())) (p : Nat) :
    held (storeAfter s runs) p = (runs.valueAt? p).or (held s p) := by
  induction runs generalizing s with
  | nil => rfl
  | cons r rest ih =>
    have hfirst :
        Store.write s r.start r.values = ((Store.write s r.start r.values).1, .ok ()) := by
      have := hok 0 (Nat.zero_lt_succ _)
      rw [writeOutcome_zero] at this
      exact Prod.ext rfl (Option.some.inj this)
    have hrest := ih h.tail (Store.write s r.start r.values).1 fun i hi =>
      hok (i + 1) (Nat.succ_lt_succ hi)
    rw [storeAfter_cons, hrest, hheld.ok hfirst, ← Option.or_assoc, h.valueAt?_cons]

/-- Where the writes stop, the store holds the runs before: a write that fails changes nothing. -/
theorem held_storeAfter_take {held : σ → Nat → Option Nat} (hheld : Store.WritesExactly held)
    {runs : RunList} (h : Canonical runs) {s : σ} {j : Nat} (hstops : StopsAt s runs j) (p : Nat) :
    held (storeAfter s (runs.take (j + 1))) p = (valueAt? (runs.take j) p).or (held s p) := by
  have hprefix : ∀ i < (runs.take j).length, writeOutcome s (runs.take j) i = some (.ok ()) := by
    intro i hi
    rw [List.length_take] at hi
    rw [writeOutcome_take (by omega), hstops.written i (by omega)]
  rw [← held_storeAfter hheld (h.take j) s hprefix, List.take_add_one, storeAfter_append]
  rcases hstops.stop with hj | ⟨e, hfail⟩
  · rw [List.getElem?_eq_none hj.ge]
    rfl
  · obtain ⟨r, hr, hwrite⟩ := Option.map_eq_some_iff.mp hfail
    rw [hr]
    exact hheld.error (Prod.ext rfl hwrite) p

theorem Sound.commit_of_forall_ok (h : Sound o.width.Fits o) {s : σ}
    (hw : Store.width s = o.width)
    (hok : ∀ i < o.runs.length, writeOutcome s o.runs i = some (.ok ())) :
    (o.commit s).store = storeAfter s o.runs ∧ (o.commit s).overlay = { o with runs := [] } ∧
      (o.commit s).result = .ok ⟨o.runs.length, (o.runs.map Run.length).sum⟩ := by
  obtain ⟨j, hstops, hstore, hoverlay, ⟨hj, hresult⟩ | ⟨e, hfail, -⟩⟩ := h.commit_cases hw
  · rw [hj, List.take_of_length_le (Nat.le_succ _)] at hstore
    rw [hj, List.drop_length] at hoverlay
    exact ⟨hstore, hoverlay, hresult⟩
  · have hlt : j < o.runs.length := by
      by_contra hge
      rw [writeOutcome_eq_none_iff.mpr (by omega)] at hfail
      cases hfail
    exact absurd (hok j hlt) hstops.not_written

/-! ### The attempts -/

theorem storeAfter_journal (s : σ) (attempts runs : RunList) :
    storeAfter (⟨s, attempts⟩ : Journal σ) runs = ⟨storeAfter s runs, attempts ++ runs⟩ := by
  induction runs generalizing s attempts with
  | nil => rw [storeAfter_nil, storeAfter_nil, List.append_nil]
  | cons r rest ih =>
    rw [storeAfter_cons, storeAfter_cons, List.append_cons]
    exact ih _ _

theorem writeOutcome_journal (s : σ) (attempts runs : RunList) (i : Nat) :
    writeOutcome (⟨s, attempts⟩ : Journal σ) runs i = writeOutcome s runs i := by
  unfold writeOutcome
  rw [storeAfter_journal]
  rfl

/-- **The attempts of a commit** are the writes of the runs up to where they stop, once each. -/
theorem Sound.commit_journal (h : Sound o.width.Fits o) {s : σ} (hw : Store.width s = o.width)
    {j : Nat} (hstops : StopsAt s o.runs j) :
    (o.commit (⟨s, []⟩ : Journal σ)).store =
      ⟨storeAfter s (o.runs.take (j + 1)), o.runs.take (j + 1)⟩ := by
  obtain ⟨k, hk, hstore, -⟩ := h.commit_cases (s := (⟨s, []⟩ : Journal σ)) hw
  have hk' : StopsAt s o.runs k :=
    ⟨fun i hi => writeOutcome_journal s [] o.runs i ▸ hk.written i hi,
      writeOutcome_journal s [] o.runs k ▸ hk.stop⟩
  rw [hstore, hk'.unique hstops, storeAfter_journal, List.nil_append]

/-! ### The whole -/

/-- **A commit splits the runs at the first failure and loses nothing.** The store may fail any
write. With `j` the index of the first run whose write fails, or the number of runs if there is
none, the attempts are the writes of the runs up to `j`, in their order and once each; the store
then holds the runs before `j` over what it held; the overlay keeps the others and all else; and the
result is the report, or the error of the write at `j`. A commit of what is left to a store that
holds the same and whose writes no longer fail then leaves nothing, and the store as if no write had
ever failed. -/
theorem commit_split (h : Reachable o.width.Fits o) {held : σ → Nat → Option Nat}
    (hheld : Store.WritesExactly held) {s : σ} (hw : Store.width s = o.width) :
    ∃ j ≤ o.runs.length, (∀ i < j, writeOutcome s o.runs i = some (.ok ())) ∧
      (j = o.runs.length ∧
          (o.commit s).result = .ok ⟨o.runs.length, (o.runs.map Run.length).sum⟩ ∨
        ∃ e, writeOutcome s o.runs j = some (.error e) ∧ (o.commit s).result = .error e) ∧
      (o.commit (⟨s, []⟩ : Journal σ)).store = ⟨(o.commit s).store, o.runs.take (j + 1)⟩ ∧
      (∀ p, held (o.commit s).store p = (valueAt? (o.runs.take j) p).or (held s p)) ∧
      (o.commit s).overlay = { o with runs := o.runs.drop j } ∧
      ∀ s' : σ, Store.width s' = o.width → (∀ p, held s' p = held (o.commit s).store p) →
        (∀ i < (o.runs.drop j).length, writeOutcome s' (o.runs.drop j) i = some (.ok ())) →
        let again := (o.commit s).overlay.commit s'
        again.overlay = { o with runs := [] } ∧
          again.result = .ok ⟨(o.runs.drop j).length, ((o.runs.drop j).map Run.length).sum⟩ ∧
          ∀ p, held again.store p = (o.runs.valueAt? p).or (held s p) := by
  have hs : Sound o.width.Fits o := h.sound fun v hv => hv
  obtain ⟨j, hstops, hstore, hoverlay, hresult⟩ := hs.commit_cases hw
  have hsplit := held_storeAfter_take hheld hs.canonical hstops
  rw [← hstore] at hsplit
  refine ⟨j, hstops.le_length, hstops.written, hresult, ?_, hsplit, hoverlay,
    fun s' hw' hsame hworks => ?_⟩
  · rw [hs.commit_journal hw hstops, hstore]
  · rw [hoverlay]
    obtain ⟨hstore', hoverlay', hresult'⟩ :=
      Sound.commit_of_forall_ok (o := { o with runs := o.runs.drop j }) (hs.drop j) hw' hworks
    refine ⟨hoverlay', hresult', fun p => ?_⟩
    rw [hstore', held_storeAfter hheld (hs.canonical.drop j) s' hworks, hsame, hsplit,
      ← Option.or_assoc, hs.canonical.valueAt?_take_drop]

/-- A commit of three runs whose second write fails, and one more after that. -/
theorem commit_split_second_write :
    let s : Unsteady MemoryStore := ⟨MemoryStore.zeroed .w8 20,
      fun n => if n = 1 then some (.writeFailed 8 "device") else none, 0⟩
    let o : Overlay := ⟨.w8, 20, [⟨2, [1]⟩, ⟨8, [2, 2]⟩, ⟨15, [3]⟩],
      { entries := [⟨8, [0, 0]⟩, ⟨2, [0]⟩], limit := 4, dropped := 0 }⟩
    let again := (o.commit s).overlay.commit (o.commit s).store
    Reachable o.width.Fits o ∧ (o.commit s).result = .error (.writeFailed 8 "device") ∧
      (o.commit s).overlay = { o with runs := [⟨8, [2, 2]⟩, ⟨15, [3]⟩] } ∧
      again.overlay = { o with runs := [] } ∧ again.result = .ok ⟨2, 3⟩ ∧
      ∀ p, again.store.store.elements[p]? = (o.runs.valueAt? p).or s.store.elements[p]? := by
  intro s o again
  have hs : Store.ReadsWithin Width.w8.Fits s.store := s.store.exact.readsWithin (by decide)
  have hreach : Reachable o.width.Fits o := by
    refine ⟨.w8, 20, 4, [.change s.store 2 [1] true, .change s.store 8 [2, 2] true,
      .change s.store 15 [3] false], ?_, by decide⟩
    simp only [List.forall_mem_cons]
    exact ⟨hs, hs, hs, by simp⟩
  obtain ⟨j, -, -, -, -, -, hoverlay, hagain⟩ :=
    commit_split hreach (Unsteady.writesExactly MemoryStore.writesExactly) (s := s) rfl
  have hleft : o.runs.drop j = [⟨8, [2, 2]⟩, ⟨15, [3]⟩] := by
    rw [← show (o.commit s).overlay.runs = o.runs.drop j from congrArg Overlay.runs hoverlay]
    decide
  rw [hleft] at hagain
  obtain ⟨hempty, hresult, hheld⟩ := hagain (o.commit s).store rfl (fun _ => rfl) (by decide)
  exact ⟨hreach, by decide, by decide, hempty, hresult, hheld⟩

end EditOverlay.Overlay
