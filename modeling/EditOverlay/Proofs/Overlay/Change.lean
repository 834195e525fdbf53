import EditOverlay.Proofs.Overlay.LastWrite

/-! # Overlays: changes that are refused, and changes that are not

`changeObjections` lists all that speaks against a change, the weightiest first: another width, a
position behind the end, a range that is too long, each value that does not fit, and a read of the
old values that fails. A change is refused if and only if the list is not empty, with the first
objection (`change_eq_error_iff`); what it does otherwise is `change_of_valid`.

`changeInPlace` is the change as a program that works on the overlay step by step, and
`runOn_changeInPlace` says that it is refused before its first step: a refused change leaves the
overlay as it was. -/

namespace EditOverlay

/-! ### Objections -/

/-- Refuses with the first objection, if there is any. -/
def refuse : List EditError → Except EditError Unit
  | [] => .ok ()
  | e :: _ => .error e

theorem refuse_append (es es' : List EditError) :
    refuse (es ++ es') = refuse es >>= fun _ => refuse es' := by
  cases es <;> rfl

theorem refuse_eq_error_iff {es : List EditError} {e : EditError} :
    refuse es = .error e ↔ es.head? = some e := by
  cases es <;> simp [refuse]

namespace Width

/-- The objection to another width. -/
def widthObjections (expected actual : Width) : List EditError :=
  if expected = actual then [] else [.widthMismatch expected.bits actual.bits]

/-- The objections to values, one for each that does not fit. -/
def valueObjections (w : Width) (values : List Nat) : List EditError :=
  (values.filter fun v => ¬ w.Fits v).map (.valueTooWide · w.bits)

theorem ensureSame_eq_refuse (expected actual : Width) :
    expected.ensureSame actual = refuse (expected.widthObjections actual) := by
  unfold ensureSame widthObjections
  split_ifs <;> rfl

theorem checkAll_eq_refuse (w : Width) (values : List Nat) :
    w.checkAll values = refuse (w.valueObjections values) := by
  induction values with
  | nil => rfl
  | cons v vs ih =>
    rw [checkAll, check, ih]
    by_cases hv : w.Fits v
    · simp [valueObjections, hv, bind, Except.bind]
    · simp [valueObjections, hv, refuse, bind, Except.bind]

end Width

namespace Overlay

open RunList

variable {σ : Type} [Store σ] {o o' : Overlay} {s : σ} {pos : Nat} {values : List Nat}
  {record : Bool} {e : EditError}

/-- All that speaks against a block of values, the weightiest objection first. -/
def blockObjections (o : Overlay) (pos : Nat) (values : List Nat) : List EditError :=
  (if o.length < pos then [.outOfRange pos o.length] else []) ++
    ((if o.length < pos + values.length then [.rangeOverflow pos values.length o.length] else []) ++
      o.width.valueObjections values)

/-- The objection to elements that have to be read, but cannot. -/
def readObjections (s : σ) (offset count : Nat) : List EditError :=
  match Store.read s offset count with
  | .ok _ => []
  | .error e => [e]

/-- All that speaks against a change, the weightiest objection first. The old values are read only
if there are values to be recorded for. -/
def changeObjections (o : Overlay) (s : σ) (pos : Nat) (values : List Nat) (record : Bool) :
    List EditError :=
  o.width.widthObjections (Store.width s) ++
    (o.blockObjections pos values ++
      if record = true ∧ values ≠ [] then readObjections s pos values.length else [])

theorem validate_eq_refuse (o : Overlay) (pos : Nat) (values : List Nat) :
    o.validate pos values = refuse (o.blockObjections pos values) := by
  unfold validate blockObjections
  rw [refuse_append, refuse_append, ← Width.checkAll_eq_refuse]
  split_ifs with hpos hrange
  · rfl
  · rfl
  · have hcheck : checkRange pos values.length o.length = .error (.rangeOverflow pos values.length
        o.length) := if_neg (by omega)
    rw [hcheck]
    rfl
  · rw [checkRange_eq_ok_iff.mpr ⟨by omega, rfl⟩]
    rfl

/-! ### What a change does -/

/-- **A change that is not refused for its arguments** fails only if the old values are wanted and
cannot be read. -/
theorem change_of_valid (hw : o.width = Store.width s)
    (hb : Run.Within o.width.Fits o.length ⟨pos, values⟩) (record : Bool) :
    o.change s pos values record =
      if record = true ∧ values ≠ [] then
        (Store.read s pos values.length).map fun elements =>
          { o with history := o.history.push ⟨pos, o.apply elements pos none⟩ }.merge pos values
      else .ok (o.merge pos values) := by
  unfold change Overlay.values
  have hrange : checkRange pos values.length o.length = .ok (pos + values.length) :=
    checkRange_eq_ok_iff.mpr ⟨hb.1, rfl⟩
  rw [Width.ensureSame_eq_ok_iff.mpr hw, validate_eq_ok_iff.mpr hb, hrange]
  cases values with
  | nil =>
    have hunwanted : ¬(record = true ∧ ([] : List Nat) ≠ []) := fun h => h.2 rfl
    rw [if_neg hunwanted]
    rfl
  | cons v vs =>
    cases record with
    | false =>
      have hunwanted : ¬(false = true ∧ v :: vs ≠ []) := fun h => Bool.noConfusion h.1
      rw [if_neg hunwanted]
      rfl
    | true =>
      have hwanted : true = true ∧ v :: vs ≠ [] := ⟨rfl, List.cons_ne_nil v vs⟩
      rw [if_pos hwanted]
      cases Store.read s pos (v :: vs).length <;> rfl

theorem change_of_refused
    (h : refuse (o.width.widthObjections (Store.width s) ++ o.blockObjections pos values) =
      .error e) (record : Bool) : o.change s pos values record = .error e := by
  rw [refuse_append, ← Width.ensureSame_eq_refuse, ← validate_eq_refuse] at h
  unfold change
  cases hwidth : o.width.ensureSame (Store.width s) with
  | error e' =>
    rw [hwidth] at h
    cases h
    rfl
  | ok u =>
    rw [hwidth] at h
    cases hvalid : o.validate pos values with
    | error e' =>
      rw [hvalid] at h
      cases h
      rfl
    | ok u' =>
      rw [hvalid] at h
      cases h

theorem change_eq_error_iff : o.change s pos values record = .error e ↔
    (o.changeObjections s pos values record).head? = some e := by
  rw [changeObjections, ← List.append_assoc, ← refuse_eq_error_iff, refuse_append]
  cases harguments : refuse (o.width.widthObjections (Store.width s) ++
      o.blockObjections pos values) with
  | error e' =>
    rw [change_of_refused harguments, bind_error]
    simp only [Except.error.injEq]
  | ok u =>
    rw [refuse_append, ← Width.ensureSame_eq_refuse, ← validate_eq_refuse, bind_eq_ok] at harguments
    obtain ⟨u', hwidth, hvalid⟩ := harguments
    rw [change_of_valid (Width.ensureSame_eq_ok_iff.mp hwidth) (validate_eq_ok_iff.mp hvalid)]
    rw [bind_ok]
    split_ifs with hwanted
    · unfold readObjections
      cases Store.read s pos values.length with
      | error e' => exact ⟨fun h => by cases h; rfl, fun h => by cases h; rfl⟩
      | ok elements => exact iff_of_false (fun h => by cases h) fun h => by cases h
    · exact iff_of_false (fun h => by cases h) fun h => by cases h

theorem exists_change_iff : (∃ o', o.change s pos values record = .ok o') ↔
    Store.width s = o.width ∧ Run.Within o.width.Fits o.length ⟨pos, values⟩ ∧
      (record = true → values ≠ [] → ∃ elements,
        Store.read s pos values.length = .ok elements) := by
  constructor
  · rintro ⟨o', h⟩
    obtain ⟨hw, hb, -⟩ := change_eq_ok h
    refine ⟨hw.symm, hb, fun hrecord hne => ?_⟩
    rw [change_of_valid hw hb, if_pos ⟨hrecord, hne⟩] at h
    obtain ⟨elements, hread, -⟩ := map_eq_ok.mp h
    exact ⟨elements, hread⟩
  · rintro ⟨hw, hb, hread⟩
    rw [change_of_valid hw.symm hb]
    split_ifs with hwanted
    · obtain ⟨elements, helements⟩ := hread hwanted.1 hwanted.2
      rw [helements]
      exact ⟨_, rfl⟩
    · exact ⟨_, rfl⟩

/-! ### Changing in place -/

/-- The change as a program on an overlay. A step that is refused ends it, and what the steps before
have done to the overlay stays done. -/
def changeInPlace (s : σ) (pos : Nat) (values : List Nat) (record : Bool) :
    ExceptT EditError (StateM Overlay) Unit := do
  let o ← get
  MonadExcept.ofExcept (o.width.ensureSame (Store.width s))
  MonadExcept.ofExcept (o.validate pos values)
  if values.isEmpty then return
  if record then
    let previous ← MonadExcept.ofExcept (o.values s pos values.length)
    modify fun o => { o with history := o.history.push ⟨pos, previous⟩ }
  modify fun o => o.merge pos values

/-- What comes of a program on an overlay, and the overlay that it leaves. -/
def runOn (o : Overlay) (program : ExceptT EditError (StateM Overlay) Unit) :
    Except EditError Unit × Overlay := program.run.run o

theorem runOn_get_bind (o : Overlay) (f : Overlay → ExceptT EditError (StateM Overlay) Unit) :
    o.runOn (get >>= f) = o.runOn (f o) := rfl

theorem runOn_ofExcept_bind {α : Type} (o : Overlay) (x : Except EditError α)
    (f : α → ExceptT EditError (StateM Overlay) Unit) :
    o.runOn (MonadExcept.ofExcept x >>= f) =
      match x with
      | .ok a => o.runOn (f a)
      | .error e => (.error e, o) := by
  cases x <;> rfl

/-- **A refused change leaves the overlay as it was,** also if it is made in place. -/
theorem runOn_changeInPlace (o : Overlay) (s : σ) (pos : Nat) (values : List Nat) (record : Bool) :
    o.runOn (changeInPlace s pos values record) =
      match o.change s pos values record with
      | .ok o' => (.ok (), o')
      | .error e => (.error e, o) := by
  unfold changeInPlace change
  rw [runOn_get_bind, runOn_ofExcept_bind]
  cases o.width.ensureSame (Store.width s) with
  | error e => rfl
  | ok u =>
    simp only [bind_ok]
    rw [runOn_ofExcept_bind]
    cases o.validate pos values with
    | error e => rfl
    | ok u' =>
      simp only [bind_ok]
      by_cases hempty : values.isEmpty = true
      · rw [if_pos hempty, if_pos hempty]
        rfl
      · rw [if_neg hempty, if_neg hempty]
        cases record with
        | false => rfl
        | true =>
          rw [if_pos rfl, if_pos rfl, runOn_ofExcept_bind]
          cases o.values s pos values.length <;> rfl

/-! ### What a change that succeeds leaves -/

theorem frame_change (h : o.change s pos values record = .ok o') :
    o'.width = o.width ∧ o'.length = o.length := by
  obtain ⟨-, -, ⟨-, rfl⟩ | ⟨-, -, previous, -, rfl⟩⟩ := change_eq_ok h
  · exact ⟨merge_width _ _ _, merge_length _ _ _⟩
  · exact ⟨merge_width _ _ _, merge_length _ _ _⟩

theorem eq_of_change_nil (h : o.change s pos [] record = .ok o') : o' = o := by
  obtain ⟨-, -, ⟨-, rfl⟩ | ⟨hne, -⟩⟩ := change_eq_ok h
  · exact merge_nil _ pos
  · exact absurd rfl hne

theorem history_of_unrecorded (h : o.change s pos values false = .ok o') :
    o'.history = o.history := by
  obtain ⟨-, -, ⟨-, rfl⟩ | ⟨-, hrecord, -⟩⟩ := change_eq_ok h
  · exact merge_history _ _ _
  · cases hrecord

theorem history_of_recorded (h : o.change s pos values true = .ok o') (hne : values ≠ []) :
    ∃ previous, o.values s pos values.length = .ok previous ∧
      o'.history = o.history.push ⟨pos, previous⟩ := by
  obtain ⟨previous, hprevious, rfl⟩ := recorded_eq_ok h hne
  exact ⟨previous, hprevious, merge_history _ _ _⟩

/-- **What is shown of a range is as long as what is read,** and each element of it is the changed
value or else the one that was read. -/
theorem values_of_read (h : Canonical o.runs) {count : Nat} {shown : List Nat}
    (hvalues : o.values s pos count = .ok shown) :
    ∃ xs, Store.read s pos count = .ok xs ∧ shown.length = xs.length ∧
      ∀ i, shown[i]? = xs[i]?.map fun x => (o.runs.valueAt? (pos + i)).getD x := by
  obtain ⟨hrange, hwidth, xs, hread, hlaid⟩ := values_eq_ok hvalues
  obtain ⟨ys, hys, hshown⟩ := values_eq_ok_of_read h hwidth.symm hrange hread
  rw [hvalues] at hys
  cases hys
  refine ⟨xs, hread, ?_, hshown⟩
  rw [hlaid, apply, length_apply h]

theorem exists_read_of_values (h : Canonical o.runs) (hs : Store.ReadsFully s) {count : Nat}
    {shown : List Nat} (hvalues : o.values s pos count = .ok shown) :
    ∃ xs, Store.read s pos count = .ok xs ∧ shown.length = count ∧
      ∀ i < count, shown[i]? = (o.runs.valueAt? (pos + i)).or xs[i]? := by
  obtain ⟨xs, hread, hlength, hshown⟩ := values_of_read h hvalues
  have hcount : xs.length = count := hs pos count xs hread
  refine ⟨xs, hread, hlength.trans hcount, fun i hi => ?_⟩
  have hlt : i < xs.length := by omega
  rw [hshown, List.getElem?_eq_getElem hlt, Option.map_some]
  cases o.runs.valueAt? (pos + i) <;> rfl

/-! ### All together -/

/-- **A change succeeds exactly if nothing speaks against it, and else it leaves no trace.** The
store may have any width and any length and may fail any read, but gives as many elements as asked
for. A change succeeds if and only if the widths agree, its range is inside, its values fit, and
the old values can be read where they are recorded; else it fails with the first objection, and
leaves the overlay as it was. One that succeeds overrides exactly its range; a recorded one puts
what the range showed before on the undo stack, within the limit. To put a block back needs its
range inside and its values to fit, and touches no undo entry. -/
theorem change_atomic (h : Reachable (fun _ => True) o) {s : σ} (hs : Store.ReadsFully s)
    (pos : Nat) (values : List Nat) (record : Bool) :
    ((∃ o', o.change s pos values record = .ok o') ↔
        Store.width s = o.width ∧ pos + values.length ≤ o.length ∧ (∀ v ∈ values, o.width.Fits v) ∧
          (record = true → values ≠ [] → ∃ xs, Store.read s pos values.length = .ok xs)) ∧
      (∀ e, o.change s pos values record = .error e ↔
        (o.changeObjections s pos values record).head? = some e) ∧
      (∀ e, o.change s pos values record = .error e →
        o.runOn (changeInPlace s pos values record) = (.error e, o)) ∧
      (∀ o', o.change s pos values record = .ok o' →
        o.runOn (changeInPlace s pos values record) = (.ok (), o') ∧
          o'.width = o.width ∧ o'.length = o.length ∧
          (∀ p, o'.runs.valueAt? p = overridden pos values o.runs.valueAt? p) ∧
          (values = [] → o' = o) ∧ (record = false → o'.history = o.history) ∧
          (record = true → values ≠ [] → ∃ xs previous,
            Store.read s pos values.length = .ok xs ∧
              o.values s pos values.length = .ok previous ∧ previous.length = values.length ∧
              (∀ i < values.length, previous[i]? = (o.runs.valueAt? (pos + i)).or xs[i]?) ∧
              o'.history = {
                entries := (⟨pos, previous⟩ :: o.history.entries).take o.history.limit
                limit := o.history.limit
                dropped := o.history.dropped + (o.history.depth + 1 - o.history.limit) })) ∧
      ((∃ o', o.requeue pos values = .ok o') ↔
        pos + values.length ≤ o.length ∧ ∀ v ∈ values, o.width.Fits v) ∧
      (∀ e, o.requeue pos values = .error e ↔ (o.blockObjections pos values).head? = some e) ∧
      ∀ o', o.requeue pos values = .ok o' →
        o'.width = o.width ∧ o'.length = o.length ∧ o'.history = o.history ∧
          ∀ p, o'.runs.valueAt? p = overridden pos values o.runs.valueAt? p := by
  have hcanonical : Canonical o.runs := (h.sound fun _ _ => trivial).canonical
  have hrun := runOn_changeInPlace o s pos values record
  refine ⟨exists_change_iff.trans (and_congr_right fun _ => and_assoc),
    fun e => change_eq_error_iff, fun e hrefused => ?_, fun o' hchange => ?_, ?_, fun e => ?_,
    fun o' hrequeue => ?_⟩
  · rw [hrun, hrefused]
  · rw [hchange] at hrun
    obtain ⟨hwidth, hlength⟩ := frame_change hchange
    refine ⟨hrun, hwidth, hlength, valueAt?_change hchange, ?_, ?_, ?_⟩
    · rintro rfl
      exact eq_of_change_nil hchange
    · rintro rfl
      exact history_of_unrecorded hchange
    · rintro rfl hne
      obtain ⟨previous, hprevious, hhistory⟩ := history_of_recorded hchange hne
      obtain ⟨xs, hread, hcount, helements⟩ := exists_read_of_values hcanonical hs hprevious
      exact ⟨xs, previous, hread, hprevious, hcount, helements, hhistory⟩
  · constructor
    · rintro ⟨o', hrequeue⟩
      exact (requeue_eq_ok_iff.mp hrequeue).1
    · exact fun hb => ⟨_, requeue_eq_ok_iff.mpr ⟨hb, rfl⟩⟩
  · rw [requeue_eq_error_iff, validate_eq_refuse, refuse_eq_error_iff]
  · have hvalues := valueAt?_requeue hrequeue
    obtain ⟨-, rfl⟩ := requeue_eq_ok_iff.mp hrequeue
    exact ⟨merge_width _ _ _, merge_length _ _ _, merge_history _ _ _, hvalues⟩

/-- A store that is shorter than the overlay: a change behind its end can be made, but not
recorded, and one before pushes the only entry off the undo stack. -/
theorem change_atomic_short_store :
    let s : MemoryStore := MemoryStore.zeroed .w8 4
    let o : Overlay := ⟨.w8, 6, [⟨1, [7]⟩], { entries := [⟨1, [0]⟩], limit := 1, dropped := 0 }⟩
    let o' : Overlay :=
      ⟨.w8, 6, [⟨0, [5, 6]⟩], { entries := [⟨0, [0, 7]⟩], limit := 1, dropped := 1 }⟩
    Reachable (fun _ => True) o ∧ Store.ReadsFully s ∧
      o.runOn (changeInPlace s 3 [1, 2] true) = (.error (.rangeOverflow 3 2 4), o) ∧
      (∃ o', o.change s 3 [1, 2] false = .ok o') ∧
      o.change s 5 [1, 300, 400] true = .error (.rangeOverflow 5 3 6) ∧
      o.change s 4 [300, 400] true = .error (.valueTooWide 300 8) ∧
      o.runOn (changeInPlace s 0 [5, 6] true) = (.ok (), o') ∧
      ∀ p, o'.runs.valueAt? p = overridden 0 [5, 6] o.runs.valueAt? p := by
  intro s o o'
  have hs : Store.ReadsFully s := s.exact.readsFully
  have hreach : Reachable (fun _ => True) o := by
    refine ⟨.w8, 6, 1, [.change s 1 [7] true], ?_, by decide⟩
    simp only [List.forall_mem_cons]
    exact ⟨s.exact.readsWithin fun _ _ => trivial, by simp⟩
  obtain ⟨-, hunread, hleft, -⟩ := change_atomic hreach hs 3 [1, 2] true
  have hunrecorded := (change_atomic hreach hs 3 [1, 2] false).1
  have hlong := (change_atomic hreach hs 5 [1, 300, 400] true).2.1 (.rangeOverflow 5 3 6)
  have hwide := (change_atomic hreach hs 4 [300, 400] true).2.1 (.valueTooWide 300 8)
  obtain ⟨-, -, -, hmade, -⟩ := change_atomic hreach hs 0 [5, 6] true
  obtain ⟨hinPlace, -, -, hvalues, -⟩ := hmade o' (by decide)
  exact ⟨hreach, hs, hleft _ ((hunread _).mpr (by decide)),
    hunrecorded.mpr ⟨rfl, by decide, by decide, fun h => by cases h⟩, hlong.mpr (by decide),
    hwide.mpr (by decide), hinPlace, hvalues⟩

end Overlay
end EditOverlay
