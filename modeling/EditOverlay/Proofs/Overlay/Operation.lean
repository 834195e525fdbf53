import EditOverlay.Overlay
import EditOverlay.Proofs.RunList.View
import EditOverlay.Proofs.Store.Reads

/-! # Overlays: operations and histories of them

An `Operation` is one call that may change an overlay, with its arguments; `Overlay.after` is the
overlay after a list of operations, in which those that are refused change nothing. A store is an
argument like any other: every operation may come with a store of another type.

For each operation a lemma says all that it can do to an overlay (`change_eq_ok`,
`requeue_eq_ok_iff`, `undo_of_entries_eq_cons`, `popFirst_cases`), so that nothing else unfolds
them. -/

namespace EditOverlay

/-- The elements that an undo entry brings back, as a run. -/
def UndoEntry.toRun (e : UndoEntry) : Run := ⟨e.position, e.previous⟩

namespace History

theorem mem_push {h : History} {e x : UndoEntry} (hx : x ∈ (h.push e).entries) :
    x = e ∨ x ∈ h.entries := List.mem_cons.mp (List.mem_of_mem_take hx)

end History

namespace Overlay

variable {σ : Type} [Store σ] {o o' : Overlay} {pos : Nat} {values : List Nat}

/-! ### What each operation can do -/

theorem validate_eq_ok_iff :
    o.validate pos values = .ok () ↔ Run.Within o.width.Fits o.length ⟨pos, values⟩ := by
  unfold validate Run.Within Run.stop Run.length
  split_ifs with hpos
  · simp only [false_iff, not_and]
    omega
  · rw [bind_eq_ok, ← Width.checkAll_eq_ok_iff]
    refine ⟨fun ⟨stop, hstop, hfit⟩ => ⟨(checkRange_eq_ok_iff.mp hstop).1, hfit⟩, fun h => ?_⟩
    exact ⟨_, checkRange_eq_ok_iff.mpr ⟨h.1, rfl⟩, h.2⟩

theorem merge_nil (o : Overlay) (pos : Nat) : o.merge pos [] = o := rfl

theorem merge_of_ne_nil (o : Overlay) (pos : Nat) (h : values ≠ []) :
    o.merge pos values = { o with runs := o.runs.write pos values } := by
  unfold merge
  rw [if_neg (by simpa using h)]

@[simp] theorem merge_width (o : Overlay) (pos : Nat) (values : List Nat) :
    (o.merge pos values).width = o.width := by unfold merge; split_ifs <;> rfl

@[simp] theorem merge_length (o : Overlay) (pos : Nat) (values : List Nat) :
    (o.merge pos values).length = o.length := by unfold merge; split_ifs <;> rfl

@[simp] theorem merge_history (o : Overlay) (pos : Nat) (values : List Nat) :
    (o.merge pos values).history = o.history := by unfold merge; split_ifs <;> rfl

/-- **Merging is overriding,** also with an empty block. -/
theorem valueAt?_merge (o : Overlay) (pos : Nat) (values : List Nat) (p : Nat) :
    (o.merge pos values).runs.valueAt? p =
      ((⟨pos, values⟩ : Run).valueAt? p).or (o.runs.valueAt? p) := by
  by_cases h : values = []
  · subst h
    have hnone : (⟨pos, []⟩ : Run).valueAt? p = none :=
      Run.valueAt?_eq_none_iff.mpr (Nat.lt_or_ge p pos)
    rw [merge_nil, hnone, Option.none_or]
  · rw [merge_of_ne_nil o pos h, RunList.valueAt?_write]

theorem overlaid_merge {xs : List Nat} (o : Overlay) (h : pos + values.length ≤ xs.length) :
    (o.merge pos values).runs.overlaid xs = overwrite (o.runs.overlaid xs) pos values := by
  by_cases hne : values = []
  · rw [hne, merge_nil, overwrite_nil]
  · rw [merge_of_ne_nil o pos hne, RunList.overlaid_write h]

theorem values_eq_ok {s : σ} {offset count : Nat} {xs : List Nat}
    (h : o.values s offset count = .ok xs) :
    offset + count ≤ o.length ∧ o.width = Store.width s ∧
      ∃ elements, Store.read s offset count = .ok elements ∧ xs = o.apply elements offset none := by
  unfold values at h
  obtain ⟨stop, hstop, h⟩ := bind_eq_ok.mp h
  obtain ⟨u, hwidth, h⟩ := bind_eq_ok.mp h
  obtain ⟨elements, hread, h⟩ := bind_eq_ok.mp h
  cases h
  exact ⟨(checkRange_eq_ok_iff.mp hstop).1, Width.ensureSame_eq_ok_iff.mp hwidth, elements, hread,
    rfl⟩

/-- **A change that succeeds** was valid. It is merged into the runs; if it is recorded and not
empty, what was there before is put on the undo stack. -/
theorem change_eq_ok {s : σ} {record : Bool} (h : o.change s pos values record = .ok o') :
    o.width = Store.width s ∧ Run.Within o.width.Fits o.length ⟨pos, values⟩ ∧
      ((values = [] ∨ record = false) ∧ o' = o.merge pos values ∨
        values ≠ [] ∧ record = true ∧ ∃ previous, o.values s pos values.length = .ok previous ∧
          o' = { o with history := o.history.push ⟨pos, previous⟩ }.merge pos values) := by
  unfold change at h
  obtain ⟨u, hwidth, h⟩ := bind_eq_ok.mp h
  obtain ⟨u', hvalid, h⟩ := bind_eq_ok.mp h
  refine ⟨Width.ensureSame_eq_ok_iff.mp hwidth, validate_eq_ok_iff.mp hvalid, ?_⟩
  split_ifs at h with hempty hrecord
  · have hnil : values = [] := List.isEmpty_iff.mp hempty
    cases h
    exact Or.inl ⟨Or.inl hnil, by rw [hnil, merge_nil]⟩
  · obtain ⟨previous, hprevious, h⟩ := bind_eq_ok.mp h
    cases h
    exact Or.inr ⟨fun hnil => hempty (List.isEmpty_iff.mpr hnil), hrecord, previous, hprevious, rfl⟩
  · cases h
    exact Or.inl ⟨Or.inr (by simpa using hrecord), rfl⟩

theorem recorded_eq_ok {s : σ} (h : o.change s pos values true = .ok o') (hne : values ≠ []) :
    ∃ previous, o.values s pos values.length = .ok previous ∧
      o' = { o with history := o.history.push ⟨pos, previous⟩ }.merge pos values := by
  obtain ⟨-, -, ⟨hnil | hfalse, -⟩ | ⟨-, -, hrecorded⟩⟩ := change_eq_ok h
  · exact absurd hnil hne
  · cases hfalse
  · exact hrecorded

theorem requeue_eq_ok_iff :
    o.requeue pos values = .ok o' ↔
      Run.Within o.width.Fits o.length ⟨pos, values⟩ ∧ o' = o.merge pos values := by
  unfold requeue
  rw [bind_eq_ok]
  constructor
  · rintro ⟨u, hvalid, h⟩
    cases h
    exact ⟨validate_eq_ok_iff.mp hvalid, rfl⟩
  · rintro ⟨hvalid, rfl⟩
    exact ⟨(), validate_eq_ok_iff.mpr hvalid, rfl⟩

theorem requeue_eq_error_iff {e : EditError} :
    o.requeue pos values = .error e ↔ o.validate pos values = .error e := by
  unfold requeue
  cases h : o.validate pos values with
  | error e' =>
    constructor
    · rintro ⟨⟩
      rfl
    · rintro ⟨⟩
      rfl
  | ok u =>
    constructor
    · rintro ⟨⟩
    · rintro ⟨⟩

theorem undo_of_entries_eq_nil (h : o.history.entries = []) : o.undo = (0, o) := by
  unfold undo History.pop?
  rw [h]

theorem undo_of_entries_eq_cons {e : UndoEntry} {rest : List UndoEntry}
    (h : o.history.entries = e :: rest) :
    o.undo = (e.position,
      { o with history := { o.history with entries := rest } }.merge e.position e.previous) := by
  unfold undo History.pop?
  rw [h]

theorem popFirst_cases (o : Overlay) :
    o.runs = [] ∧ o.popFirst? = none ∨
      ∃ r rest, o.runs = r :: rest ∧ o.popFirst? = some (r, { o with runs := rest }) := by
  unfold popFirst?
  cases h : o.runs with
  | nil => exact Or.inl ⟨rfl, rfl⟩
  | cons r rest => exact Or.inr ⟨r, rest, rfl, rfl⟩

/-! ### Operations as data -/

/-- A call that may change an overlay. -/
inductive Operation : Type 1 where
  | change {σ : Type} [Store σ] (store : σ) (pos : Nat) (values : List Nat) (record : Bool)
  | undo
  | requeue (pos : Nat) (values : List Nat)
  | popFirst
  | commit {σ : Type} [Store σ] (store : σ)
  | clear

/-- The overlay after an operation. One that is refused changes nothing. -/
def Operation.run (o : Overlay) : Operation → Overlay
  | @Operation.change _ _ store pos values record =>
    match o.change store pos values record with
    | .ok o' => o'
    | .error _ => o
  | .undo => o.undo.2
  | .requeue pos values =>
    match o.requeue pos values with
    | .ok o' => o'
    | .error _ => o
  | .popFirst =>
    match o.popFirst? with
    | some (_, o') => o'
    | none => o
  | @Operation.commit _ _ store => (o.commit store).overlay
  | .clear => o.clear

/-- The reads that an operation makes give no more elements than asked for, and only allowed
ones. -/
def Operation.ReadsWithin (Q : Nat → Prop) : Operation → Prop
  | @Operation.change _ _ store _ _ _ => Store.ReadsWithin Q store
  | _ => True

theorem Operation.ReadsWithin.mono {Q Q' : Nat → Prop} (hQ : ∀ v, Q v → Q' v) {op : Operation}
    (h : op.ReadsWithin Q) : op.ReadsWithin Q' := by
  cases op with
  | change store pos values record => exact Store.ReadsWithin.mono hQ h
  | _ => trivial

/-- The overlay after operations, in their order. -/
def after (o : Overlay) (ops : List Operation) : Overlay := ops.foldl Operation.run o

/-- Operations lead to the overlay from one without changes, and their reads give no more elements
than asked for, and only allowed ones. -/
def Reachable (Q : Nat → Prop) (o : Overlay) : Prop :=
  ∃ width length limit, ∃ ops : List Operation,
    (∀ op ∈ ops, op.ReadsWithin Q) ∧ (withLimit width length limit).after ops = o

end Overlay
end EditOverlay
