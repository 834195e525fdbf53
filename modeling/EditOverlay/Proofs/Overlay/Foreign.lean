import EditOverlay.Proofs.Overlay.Order

/-! # Overlays: stores of another width

A store whose elements have another width than those of the overlay is foreign to it. Changes,
commits and reads of ranges look at the width before anything else that a store decides, so they
refuse a foreign store whatever the runs are, and operations with foreign stores leave no trace
(`after_filter_suits`). A single element is looked up in the runs first, and the width counts only
where no run covers it. So a foreign store is refused except where the element has been changed
(`foreign_store_refused_unless_changed`), and there it is accepted (`foreign_store_accepted`). -/

namespace EditOverlay

theorem Width.ensureSame_of_ne {expected actual : Width} (h : actual ≠ expected) :
    expected.ensureSame actual = .error (.widthMismatch expected.bits actual.bits) :=
  if_neg (Ne.symm h)

namespace Overlay

variable {σ : Type} [Store σ] {o : Overlay} {s : σ}

/-! ### Single operations -/

section Foreign

variable (hw : Store.width s ≠ o.width)
include hw

theorem change_of_foreign (pos : Nat) (values : List Nat) (record : Bool) :
    o.change s pos values record =
      .error (.widthMismatch o.width.bits (Store.width s).bits) := by
  unfold change
  rw [Width.ensureSame_of_ne hw, bind_error]

theorem values_of_foreign (offset count : Nat) :
    o.values s offset count = .error (if offset + count ≤ o.length
      then .widthMismatch o.width.bits (Store.width s).bits
      else .rangeOverflow offset count o.length) := by
  unfold values checkRange
  rw [Width.ensureSame_of_ne hw]
  split_ifs <;> rfl

/-- **An element of a foreign store** is refused exactly where no run covers it. -/
theorem value_of_foreign {p : Nat} (hp : p < o.length) :
    o.value s p = match o.runs.valueAt? p with
      | some v => .ok v
      | none => .error (.widthMismatch o.width.bits (Store.width s).bits) := by
  unfold value
  rw [if_neg (by omega), Width.ensureSame_of_ne hw]
  rfl

end Foreign

/-! ### Operations among others -/

/-- The operation comes with a store of the given width, or with none. -/
def Operation.Suits (w : Width) : Operation → Prop
  | @Operation.change _ _ store _ _ _ => Store.width store = w
  | @Operation.commit _ _ store => Store.width store = w
  | _ => True

instance (w : Width) : DecidablePred (Operation.Suits w)
  | @Operation.change _ _ store _ _ _ => inferInstanceAs (Decidable (Store.width store = w))
  | @Operation.commit _ _ store => inferInstanceAs (Decidable (Store.width store = w))
  | .undo => inferInstanceAs (Decidable True)
  | .requeue _ _ => inferInstanceAs (Decidable True)
  | .popFirst => inferInstanceAs (Decidable True)
  | .clear => inferInstanceAs (Decidable True)

theorem Operation.run_of_not_suits {op : Operation} (h : ¬op.Suits o.width) : op.run o = o := by
  cases op with
  | change store pos values record => simp only [run, change_of_foreign h]
  | commit store => simp only [run, commit_of_width_ne h]
  | undo | requeue | popFirst | clear => exact absurd trivial h

theorem frame_commitRuns (o : Overlay) (s : σ) (written : SaveReport) (runs : RunList) :
    (o.commitRuns s written runs).overlay.width = o.width ∧
      (o.commitRuns s written runs).overlay.length = o.length := by
  induction runs generalizing s written with
  | nil => exact ⟨rfl, rfl⟩
  | cons r rest ih =>
    rw [commitRuns]
    rcases Store.write s r.start r.values with ⟨s', e | u⟩
    · simp only
      cases hrequeue : Overlay.requeue { o with runs := rest } r.start r.values with
      | error e' => exact ⟨rfl, rfl⟩
      | ok o' =>
        obtain ⟨-, rfl⟩ := requeue_eq_ok_iff.mp hrequeue
        exact ⟨merge_width _ _ _, merge_length _ _ _⟩
    · exact ih s' _

theorem Operation.frame_run (o : Overlay) (op : Operation) :
    (op.run o).width = o.width ∧ (op.run o).length = o.length := by
  cases op with
  | change store pos values record =>
    rw [run]
    cases hchange : o.change store pos values record with
    | error e => exact ⟨rfl, rfl⟩
    | ok o' => exact frame_change hchange
  | undo => exact o.frame_undo
  | requeue pos values =>
    rw [run]
    cases hrequeue : o.requeue pos values with
    | error e => exact ⟨rfl, rfl⟩
    | ok o' =>
      obtain ⟨-, rfl⟩ := requeue_eq_ok_iff.mp hrequeue
      exact ⟨merge_width _ _ _, merge_length _ _ _⟩
  | popFirst =>
    rw [run]
    obtain ⟨-, hpop⟩ | ⟨r, rest, -, hpop⟩ := o.popFirst_cases
    · rw [hpop]
      exact ⟨rfl, rfl⟩
    · rw [hpop]
      exact ⟨rfl, rfl⟩
  | commit store =>
    by_cases hw : Store.width store = o.width
    · rw [run, commit_of_width_eq hw]
      exact frame_commitRuns o store ⟨0, 0⟩ o.runs
    · rw [run, commit_of_width_ne hw]
      exact ⟨rfl, rfl⟩
  | clear => exact ⟨rfl, rfl⟩

theorem frame_after (o : Overlay) (ops : List Operation) :
    (o.after ops).width = o.width ∧ (o.after ops).length = o.length := by
  induction ops generalizing o with
  | nil => exact ⟨rfl, rfl⟩
  | cons op ops ih =>
    obtain ⟨hwidth, hlength⟩ := op.frame_run o
    exact ⟨(ih _).1.trans hwidth, (ih _).2.trans hlength⟩

/-- **Operations with foreign stores leave no trace:** without them the others lead to the same
overlay. -/
theorem after_filter_suits (o : Overlay) (ops : List Operation) :
    o.after (ops.filter fun op => op.Suits o.width) = o.after ops := by
  induction ops generalizing o with
  | nil => rfl
  | cons op ops ih =>
    by_cases hsuits : op.Suits o.width
    · rw [List.filter_cons_of_pos (by simpa using hsuits), ← (op.frame_run o).1]
      exact ih (op.run o)
    · have hrun : o.after (op :: ops) = o.after ops :=
        congrArg (fun o' : Overlay => o'.after ops) (Operation.run_of_not_suits hsuits)
      rw [List.filter_cons_of_neg (by simpa using hsuits), ih, hrun]

/-! ### All together -/

/-- **A foreign store is refused, unless a changed element is read.** For every overlay that
operations lead to and every store of another width: a change is refused for the width, whatever its
arguments are, and leaves the overlay as it was. So is a commit, also one without runs, and it
leaves the overlay and the store as they were. A range is refused for the width, or because it is
not inside. An element behind the end is out of range. Of the others, those that are not changed are
refused for the width, and those that are give their new value. Operations with foreign stores on
the way to the overlay have left no trace in it. -/
theorem foreign_store_refused_unless_changed (width : Width) (length limit : Nat)
    (ops : List Operation) {s : σ} (hw : Store.width s ≠ width) :
    let o := (withLimit width length limit).after ops
    let mismatch := EditError.widthMismatch width.bits (Store.width s).bits
    (∀ pos values record, o.change s pos values record = .error mismatch ∧
        o.runOn (changeInPlace s pos values record) = (.error mismatch, o)) ∧
      o.commit s = ⟨o, s, .error mismatch⟩ ∧
      (∀ offset count, o.values s offset count = .error
        (if offset + count ≤ length then mismatch else .rangeOverflow offset count length)) ∧
      (∀ p, length ≤ p → o.value s p = .error (.outOfRange p length)) ∧
      (∀ p < length, o.value s p = .error mismatch ↔ o.isChanged p = false) ∧
      (∀ p < length, ∀ v, o.value s p = .ok v ↔ o.runs.valueAt? p = some v) ∧
      o = (withLimit width length limit).after (ops.filter fun op => op.Suits width) := by
  intro o mismatch
  obtain ⟨hwidth, hlength⟩ : o.width = width ∧ o.length = length :=
    frame_after (withLimit width length limit) ops
  have hforeign : Store.width s ≠ o.width := by rwa [hwidth]
  have hmismatch : EditError.widthMismatch o.width.bits (Store.width s).bits = mismatch := by
    rw [hwidth]
  rw [← hlength]
  refine ⟨fun pos values record => ?_, ?_, fun offset count => ?_, fun p hp => if_pos hp,
    fun p hp => ?_, fun p hp v => ?_, ?_⟩
  · have hchange := change_of_foreign hforeign pos values record
    rw [hmismatch] at hchange
    refine ⟨hchange, ?_⟩
    rw [runOn_changeInPlace, hchange]
  · rw [commit_of_width_ne hforeign, hmismatch]
  · rw [values_of_foreign hforeign, hmismatch]
  · rw [value_of_foreign hforeign hp, hmismatch, isChanged]
    cases o.runs.valueAt? p <;> simp
  · rw [value_of_foreign hforeign hp]
    cases o.runs.valueAt? p <;> simp
  · rw [hlength]
    exact (after_filter_suits (withLimit width length limit) ops).symm

/-- Two runs, a store of another width and length, and attempts to change and to commit with it on
the way: all is refused but what is read at the changed positions. -/
theorem foreign_store_refused_unless_changed_two_runs :
    let s : MemoryStore := MemoryStore.zeroed .w8 6
    let t : MemoryStore := MemoryStore.zeroed .w16 9
    let ops : List Operation := [.change s 0 [1, 2] true, .change t 3 [4] true, .commit t,
      .change s 4 [7] false]
    let o := (withLimit .w8 6 4).after ops
    Store.width t ≠ .w8 ∧ o.runs = [⟨0, [1, 2]⟩, ⟨4, [7]⟩] ∧
      o.change t 7 [] true = .error (.widthMismatch 8 16) ∧
      o.commit t = ⟨o, t, .error (.widthMismatch 8 16)⟩ ∧
      o.values t 0 2 = .error (.widthMismatch 8 16) ∧
      o.values t 5 2 = .error (.rangeOverflow 5 2 6) ∧
      o.value t 6 = .error (.outOfRange 6 6) ∧ o.value t 3 = .error (.widthMismatch 8 16) ∧
      o.value t 1 = .ok 2 ∧ o = (withLimit .w8 6 4).after [ops[0], ops[3]] := by
  intro s t ops o
  have hw : Store.width t ≠ .w8 := by decide
  obtain ⟨hchange, hcommit, hvalues, hbehind, hunchanged, hchanged, htrace⟩ :=
    foreign_store_refused_unless_changed .w8 6 4 ops hw
  exact ⟨hw, by decide, (hchange 7 [] true).1, hcommit, hvalues 0 2, hvalues 5 2,
    hbehind 6 (le_refl 6), (hunchanged 3 (by decide)).mpr (by decide),
    (hchanged 1 (by decide) 2).mpr (by decide), htrace⟩

/-- **A foreign store is accepted** where an element is read that has been changed, although a range
of just this element is refused, and so is the element beside it. -/
theorem foreign_store_accepted :
    let s : MemoryStore := MemoryStore.zeroed .w8 4
    let t : MemoryStore := MemoryStore.zeroed .w16 4
    let o := (withLimit .w8 4 4).after [.change s 0 [1] true]
    Store.width t ≠ o.width ∧ o.value t 0 = .ok 1 ∧
      o.values t 0 1 = .error (.widthMismatch 8 16) ∧
      o.value t 1 = .error (.widthMismatch 8 16) := by
  decide

end Overlay
end EditOverlay
