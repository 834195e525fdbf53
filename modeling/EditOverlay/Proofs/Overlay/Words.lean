import EditOverlay.Proofs.Overlay.Statistics
import EditOverlay.Proofs.RunList.Merge
import EditOverlay.Proofs.Word.Call

/-! # Overlays: calls in machine words

Every call of an overlay once more, with positions and counts in words: its sums and differences,
its slices and the intervals of its scans have no value where they leave their bounds. Over a sound
overlay whose elements a word can count this happens nowhere, and the call gives what it should
(`Sound.gives_changeWords?` and its like). The store of a call may answer it as it likes; that
earlier answers were no longer than asked for is part of the invariant.

Only the count of dropped undo entries is not bounded by the number of elements; it is no larger
than the number of operations (`Sound.dropped_after_le`). -/

namespace EditOverlay

namespace RunList

variable {runs : RunList} {r : Run} {p : Nat}

theorem isSome_valueAt?_of_covers (h : covers p r = true) : (r.valueAt? p).isSome = true := by
  obtain ⟨hstart, hstop⟩ := covers_iff.mp h
  exact Run.isSome_valueAt? hstart hstop

theorem valueAt?_eq_bind_find? (runs : RunList) (p : Nat) :
    runs.valueAt? p = (runs.find? (covers p)).bind (·.valueAt? p) := by
  induction runs with
  | nil => rfl
  | cons r runs ih =>
    rw [valueAt?_cons, List.find?_cons]
    cases hcovers : covers p r with
    | true =>
      obtain ⟨v, hv⟩ := Option.isSome_iff_exists.mp (isSome_valueAt?_of_covers hcovers)
      simp [hv]
    | false =>
      have hnone : r.valueAt? p = none := by
        refine Run.valueAt?_eq_none_iff.mpr ?_
        have := covers_iff.not.mp (Bool.not_eq_true _ ▸ hcovers)
        omega
      rw [hnone, Option.none_or, ih]

theorem getElem?_of_covers (h : covers p r = true) :
    r.values[p - r.start]? = r.valueAt? p := (if_pos (covers_iff.mp h).1).symm

end RunList

namespace Overlay

open RunList
open Word (Call)
open Word.Call

variable {σ : Type} [Store σ] {Q : Nat → Prop} {o : Overlay}

/-! ### The calls -/

/-- Whether a position has a new value, in words. -/
def isChangedWords? (o : Overlay) (p : Nat) : Option Bool := do
  return (← o.runs.covering? p).isSome

/-- The value at a position, in words. -/
def valueWords? (o : Overlay) (store : σ) (p : Nat) : Call Nat :=
  if o.length ≤ p then throw (.outOfRange p o.length)
  else do
    match ← o.runs.covering? p with
    | some r => do
      let index ← Word.sub? p r.start
      let v ← (r.values[index]? : Option Nat)
      return v
    | none => do
      o.width.ensureSame (Store.width store)
      match ← Store.read store p 1 with
      | v :: _ => return v
      | [] => throw (.outOfRange p (Store.length store))

/-- Lays the changes over elements read from `offset` on, in words. -/
def applyWords? (o : Overlay) (target : List Nat) (offset : Nat) (limit : Option Nat) :
    Option (List Nat) := o.runs.lay? target offset (limit.getD target.length)

/-- The values in a range, in words. -/
def valuesWords? (o : Overlay) (store : σ) (offset count : Nat) : Call (List Nat) := do
  let _ ← Word.checkRange offset count o.length
  o.width.ensureSame (Store.width store)
  let elements ← Store.read store offset count
  o.applyWords? elements offset none

/-- The changes in a range, in words. -/
def changesInWords? (o : Overlay) (offset count : Nat) : Option RunList := o.runs.scan? offset count

/-- Refuses a block outside the elements or with a value that does not fit, in words. -/
def validateWords (o : Overlay) (pos : Nat) (values : List Nat) : Except EditError Unit :=
  if o.length < pos then .error (.outOfRange pos o.length)
  else do
    let _ ← Word.checkRange pos values.length o.length
    o.width.checkAll values

/-- The overlay with a block of values written into its runs, in words. -/
def mergeWords? (o : Overlay) (pos : Nat) (values : List Nat) : Option Overlay :=
  if values.isEmpty then some o else do return { o with runs := ← o.runs.merge? pos values }

/-- Changes the elements from `pos` on, in words. -/
def changeWords? (o : Overlay) (store : σ) (pos : Nat) (values : List Nat) (record : Bool) :
    Call Overlay := do
  o.width.ensureSame (Store.width store)
  o.validateWords pos values
  if values.isEmpty then return o
  if record then
    let previous ← o.valuesWords? store pos values.length
    { o with history := o.history.push ⟨pos, previous⟩ }.mergeWords? pos values
  else o.mergeWords? pos values

/-- Takes back the newest recorded change, in words. -/
def undoWords? (o : Overlay) : Option (Nat × Overlay) :=
  match o.history.pop? with
  | none => some (0, o)
  | some (e, rest) => do
    return (e.position, ← { o with history := rest }.mergeWords? e.position e.previous)

/-- Puts a run back that could not be written, in words. -/
def requeueWords? (o : Overlay) (pos : Nat) (values : List Nat) : Call Overlay := do
  o.validateWords pos values
  o.mergeWords? pos values

/-- Writes runs one by one, with words for what has been written. -/
def commitRunsWords? (o : Overlay) (store : σ) (written : SaveReport) :
    RunList → Option (Commit σ)
  | [] => some ⟨{ o with runs := [] }, store, .ok written⟩
  | r :: rest =>
    match Store.write store r.start r.values with
    | (store', .ok ()) => do
      let runs ← Word.add? written.runs 1
      let elements ← Word.add? written.elements r.length
      commitRunsWords? o store' ⟨runs, elements⟩ rest
    | (store', .error e) => do
      match ← ({ o with runs := rest }.requeueWords? r.start r.values).run with
      | .ok o' => return ⟨o', store', .error e⟩
      | .error e' => return ⟨{ o with runs := rest }, store', .error e'⟩

/-- Writes all changes to the store, up to the first failure, in words. -/
def commitWords? (o : Overlay) (store : σ) : Option (Commit σ) :=
  match o.width.ensureSame (Store.width store) with
  | .error e => some ⟨o, store, .error e⟩
  | .ok () => o.commitRunsWords? store ⟨0, 0⟩ o.runs

/-! ### What they give -/

theorem validateWords_eq (h : o.length ≤ Word.max) (pos : Nat) (values : List Nat) :
    o.validateWords pos values = o.validate pos values := by
  unfold validateWords validate
  rw [Word.checkRange_eq h]

theorem mergeWords?_eq {pos : Nat} {values : List Nat} (h : Canonical o.runs)
    (hw : ∀ r ∈ o.runs, r.stop ≤ Word.max) (hblock : pos + values.length ≤ Word.max) :
    o.mergeWords? pos values = some (o.merge pos values) := by
  unfold mergeWords? merge
  rw [h.merge?_eq hw hblock]
  split_ifs <;> rfl

namespace Sound

theorem stop_le_max (h : Sound Q o) (hlength : o.length ≤ Word.max) :
    ∀ r ∈ o.runs, r.stop ≤ Word.max := fun r hr => (h.runs_within r hr).1.trans hlength

theorem isChangedWords?_eq (h : Sound Q o) (hlength : o.length ≤ Word.max) (p : Nat) :
    o.isChangedWords? p = some (o.isChanged p) := by
  unfold isChangedWords? isChanged
  rw [h.canonical.covering?_eq (h.stop_le_max hlength), valueAt?_eq_bind_find?]
  cases hfind : o.runs.find? (covers p) with
  | none => rfl
  | some r =>
    rw [Option.bind_some, isSome_valueAt?_of_covers (List.find?_some hfind)]
    rfl

theorem applyWords?_eq (h : Sound Q o) (hlength : o.length ≤ Word.max) {offset : Nat}
    (hoffset : offset ≤ Word.max) (target : List Nat) (limit : Option Nat) :
    o.applyWords? target offset limit = some (o.apply target offset limit) :=
  h.canonical.lay?_eq (h.stop_le_max hlength) hoffset target _

theorem changesInWords?_eq (h : Sound Q o) (hlength : o.length ≤ Word.max) {offset : Nat}
    (hoffset : offset ≤ Word.max) (count : Nat) :
    o.changesInWords? offset count = some (o.changesIn offset count) :=
  h.canonical.scan?_eq (h.stop_le_max hlength) hoffset count

theorem gives_valueWords? (h : Sound Q o) (hlength : o.length ≤ Word.max) (s : σ) (p : Nat) :
    Gives (o.valueWords? s p) (o.value s p) := by
  unfold valueWords? value
  rw [h.canonical.covering?_eq (h.stop_le_max hlength), valueAt?_eq_bind_find?]
  split_ifs with hp
  · exact gives_throw _
  refine Gives.word_bind rfl ?_
  cases hfind : o.runs.find? (covers p) with
  | some r =>
    have hcovers := List.find?_some hfind
    obtain ⟨v, hv⟩ := Option.isSome_iff_exists.mp (isSome_valueAt?_of_covers hcovers)
    have hindex : Word.sub? p r.start = some (p - r.start) :=
      Word.sub?_of_le (covers_iff.mp hcovers).1
    rw [Option.bind_some, hv]
    refine Gives.word_bind hindex (gives_word ?_)
    rw [getElem?_of_covers hcovers, hv]
  | none =>
    refine (gives_checked _).bind fun _ _ => (gives_checked _).bind fun elements _ => ?_
    cases elements with
    | nil => exact gives_throw _
    | cons v _ => exact gives_pure v

theorem gives_valuesWords? (h : Sound Q o) (hlength : o.length ≤ Word.max) (s : σ)
    (offset count : Nat) : Gives (o.valuesWords? s offset count) (o.values s offset count) := by
  unfold valuesWords? values
  rw [Word.checkRange_eq hlength]
  refine (gives_checked _).bind fun stop hstop => (gives_checked _).bind fun _ _ =>
    (gives_checked _).bind fun elements _ => ?_
  have hoffset := (checkRange_eq_ok_iff.mp hstop).1
  exact gives_word (h.applyWords?_eq hlength (by omega) elements none)

theorem gives_changeWords? (h : Sound Q o) (hlength : o.length ≤ Word.max) (s : σ) (pos : Nat)
    (values : List Nat) (record : Bool) :
    Gives (o.changeWords? s pos values record) (o.change s pos values record) := by
  unfold changeWords? change
  rw [validateWords_eq hlength]
  refine (gives_checked _).bind fun _ _ => (gives_checked _).bind fun _ hvalid => ?_
  have hblock : pos + values.length ≤ Word.max :=
    (validate_eq_ok_iff.mp hvalid).1.trans hlength
  split_ifs
  · exact gives_pure o
  · refine (h.gives_valuesWords? hlength s pos values.length).bind fun previous _ => ?_
    exact gives_word (mergeWords?_eq h.canonical (h.stop_le_max hlength) hblock)
  · exact gives_word (mergeWords?_eq h.canonical (h.stop_le_max hlength) hblock)

theorem undoWords?_eq (h : Sound Q o) (hlength : o.length ≤ Word.max) :
    o.undoWords? = some o.undo := by
  unfold undoWords? undo History.pop?
  cases hentries : o.history.entries with
  | nil => rfl
  | cons e rest =>
    obtain ⟨hentry, hpop⟩ := h.pop hentries
    have hmerge := mergeWords?_eq hpop.canonical (hpop.stop_le_max hlength) (hentry.1.trans hlength)
    exact congrArg (Option.bind · fun o' => some (e.position, o')) hmerge

theorem gives_requeueWords? (h : Sound Q o) (hlength : o.length ≤ Word.max) (pos : Nat)
    (values : List Nat) : Gives (o.requeueWords? pos values) (o.requeue pos values) := by
  unfold requeueWords? requeue
  rw [validateWords_eq hlength]
  refine (gives_checked _).bind fun _ hvalid => ?_
  exact gives_word (mergeWords?_eq h.canonical (h.stop_le_max hlength)
    ((validate_eq_ok_iff.mp hvalid).1.trans hlength))

/-- **A commit counts no further than to the number of elements,** whatever the store does. -/
theorem commitRunsWords?_eq (hlength : o.length ≤ Word.max) {runs : RunList} {written : SaveReport}
    {s : σ} (h : Sound Q { o with runs := runs }) (hruns : written.runs + runs.count ≤ Word.max)
    (helements : written.elements + runs.count ≤ Word.max) :
    o.commitRunsWords? s written runs = some (o.commitRuns s written runs) := by
  induction runs generalizing s written with
  | nil => rfl
  | cons r rest ih =>
    have hrest : Sound Q { o with runs := rest } := h.drop 1
    have hcount : RunList.count (r :: rest) = r.length + RunList.count rest := rfl
    have hpositive : 0 < r.length :=
      List.length_pos_of_ne_nil (h.canonical.nonempty r List.mem_cons_self)
    unfold commitRunsWords? commitRuns
    rcases Store.write s r.start r.values with ⟨s', result⟩
    cases result with
    | ok u =>
      simp only [Word.add?_of_le (show written.runs + 1 ≤ Word.max by omega),
        Word.add?_of_le (show written.elements + r.length ≤ Word.max by omega),
        Option.bind_eq_bind, Option.bind_some]
      exact ih hrest (by simp only; omega) (by simp only; omega)
    | error e =>
      have hrequeue := hrest.gives_requeueWords? hlength r.start r.values
      unfold Gives at hrequeue
      simp only [hrequeue, Option.bind_eq_bind, Option.bind_some]
      cases { o with runs := rest }.requeue r.start r.values <;> rfl

theorem commitWords?_eq (h : Sound Q o) (hlength : o.length ≤ Word.max) (s : σ) :
    o.commitWords? s = some (o.commit s) := by
  have hcount : 0 + o.runs.count ≤ Word.max := by
    rw [Nat.zero_add]
    exact (h.changedCount_eq.le.trans (card_changedPositions_le o)).trans hlength
  unfold commitWords? commit
  cases o.width.ensureSame (Store.width s) with
  | error e => rfl
  | ok u => exact commitRunsWords?_eq hlength h hcount hcount

end Sound

/-! ### The count of dropped entries -/

theorem Effect.dropped_le {o' : Overlay} (h : Effect Q o o')
    (hdepth : o.history.depth ≤ o.history.limit) :
    o'.history.dropped ≤ o.history.dropped + 1 := by
  cases h with
  | nothing => exact Nat.le_succ _
  | merge => rw [merge_history]; exact Nat.le_succ _
  | record =>
    rw [merge_history]
    simp only [History.push, List.length_cons]
    unfold History.depth at hdepth
    omega
  | undo => rw [merge_history]; exact Nat.le_succ _
  | drop => exact Nat.le_succ _
  | clear => exact Nat.zero_le _

theorem Sound.dropped_after_le (h : Sound Q o) (hQ : ∀ v, o.width.Fits v → Q v)
    {ops : List Operation} (hops : ∀ op ∈ ops, op.ReadsWithin Q) :
    (o.after ops).history.dropped ≤ o.history.dropped + ops.length := by
  induction ops generalizing o with
  | nil => exact le_refl _
  | cons op ops ih =>
    obtain ⟨hop, hothers⟩ := List.forall_mem_cons.mp hops
    have heffect := effect_run h hop
    have hfirst := heffect.dropped_le h.depth_le
    have hrest := ih (h.run hQ hop) (by rwa [heffect.frame.1]) hothers
    rw [List.length_cons]
    exact hrest.trans (by omega)

end Overlay
end EditOverlay
