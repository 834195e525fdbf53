import EditOverlay.Proofs.Dump.View
import EditOverlay.Proofs.Overlay.Words

/-! # Dumps: views and texts in machine words

The views and dumps of an editor once more, with words for all positions: what is left behind an
offset is a difference, the place of a line is a product and a sum, and the place of a value on it
is one more sum. `Overlay.FitsWords` says of an overlay that these and all its own calls go wrong
nowhere; it holds wherever operations lead, up to the longest store there is
(`machine_words_suffice`). -/

namespace EditOverlay

open Word.Call

variable {σ : Type} [Store σ]

/-- The values from `offset` on for display, in words. -/
def Editor.viewWords? (e : Editor σ) (offset count : Nat) : Word.Call (List Nat) :=
  let length := Store.length e.store
  if length < offset then throw (.outOfRange offset length)
  else do
    let left ← Word.sub? length offset
    let elements ← Store.read e.store offset (min count left)
    e.overlay.applyWords? elements offset none

namespace Dump

/-- The text of a value with its index on a line that starts at `start`, in words. -/
def cellWords? (w : Width) (changed? : Nat → Option Bool) (start : Nat) (item : Nat × Nat) :
    Option (List Char) := do
  let p ← Word.add? start item.2
  return cell w (← changed? p) item.1

/-- The text of a line, in words. -/
def lineWords? (w : Width) (changed? : Nat → Option Bool) (start : Nat) (values : List Nat) :
    Option (List Char) := do
  let cells ← values.zipIdx.mapM (cellWords? w changed? start)
  return position start ++ ':' :: cells.flatten

/-- The text of a line with its number, in words. -/
def rowWords? (w : Width) (changed? : Nat → Option Bool) (offset : Nat) (item : List Nat × Nat) :
    Option (List Char) := do
  let distance ← Word.mul? perLine item.2
  lineWords? w changed? (← Word.add? offset distance) item.1

/-- The lines for values from `offset` on, in words. -/
def linesWords? (w : Width) (changed? : Nat → Option Bool) (offset : Nat) (values : List Nat) :
    Option (List (List Char)) := (rows values).zipIdx.mapM (rowWords? w changed? offset)

/-- The dump of the values from `offset` on, in words. -/
def viewWords? (e : Editor σ) (offset count : Nat) : Word.Call String := do
  let values ← e.viewWords? offset count
  let texts ← linesWords? (Store.width e.store) e.overlay.isChangedWords? offset values
  return unlines (texts.map String.ofList)

/-- The text of a run, in words. -/
def runTextWords? (r : Run) : Option String := do
  let stop ← Word.add? r.start r.length
  let start := String.ofList (position r.start)
  let stop := String.ofList (position stop)
  let n := r.length
  return s!"[{start}, {stop}) {n} 个元素"

/-- The dump of the runs and of the undo stack, in words. -/
def runsWords? (e : Editor σ) : Option String := do
  let runs := e.overlay.runs
  let history := e.overlay.history
  let count := runs.length
  let depth := history.depth
  let limit := history.limit
  let dropped := history.dropped
  let texts ← runs.mapM runTextWords?
  return unlines <|
    s!"=== 修改区段 ({count}) ===" :: texts.map (fun text => "  " ++ text) ++
    s!"=== 撤销栈 ({depth}/{limit}, 已丢弃 {dropped}) ===" ::
      history.entries.map (fun e => "  " ++ entryText e)

end Dump

/-! ### What they give -/

theorem Editor.length_le_of_view {e : Editor σ} {offset count : Nat} {values : List Nat}
    (hreads : Store.ReadsWithin (fun _ => True) e.store) (h : e.overlay.runs.Canonical)
    (hview : e.view offset count = .ok values) : offset + values.length ≤ Store.length e.store := by
  unfold view at hview
  simp only at hview
  split_ifs at hview with hoffset
  obtain ⟨elements, hread, happly⟩ := bind_eq_ok.mp hview
  cases happly
  obtain ⟨hcount, -⟩ := hreads offset _ elements hread
  rw [Overlay.apply, RunList.length_apply h]
  omega

namespace Overlay.Sound

variable {Q : Nat → Prop} {o : Overlay}

theorem gives_viewWords? (h : Sound Q o) (hlength : o.length ≤ Word.max) {s : σ}
    (hs : Store.length s ≤ Word.max) (offset count : Nat) :
    Gives (Editor.viewWords? ⟨s, o⟩ offset count) (Editor.view ⟨s, o⟩ offset count) := by
  unfold Editor.viewWords? Editor.view
  simp only
  split_ifs with hoffset
  · exact gives_throw _
  · refine Gives.word_bind (Word.sub?_of_le (by omega)) ((gives_checked _).bind ?_)
    intro elements _
    exact gives_word (h.applyWords?_eq hlength (by omega) elements none)

end Overlay.Sound

namespace Dump

variable {w : Width} {changed? : Nat → Option Bool} {changed : Nat → Bool} {values : List Nat}

theorem lineWords?_eq (hchanged : ∀ p, changed? p = some (changed p)) {start : Nat}
    (hstart : start + values.length ≤ Word.max) :
    lineWords? w changed? start values = some (line w changed start values) := by
  have hcells : values.zipIdx.mapM (cellWords? w changed? start) =
      some (values.zipIdx.map fun item => cell w (changed (start + item.2)) item.1) := by
    refine RunList.mapM_eq_some_map fun item hitem => ?_
    have hindex := (List.mem_zipIdx' hitem).1
    unfold cellWords?
    simp only [Word.add?_of_le (show start + item.2 ≤ Word.max by omega), hchanged,
      Option.bind_eq_bind, Option.bind_some, Option.pure_def]
  unfold lineWords?
  rw [hcells, line, List.flatMap_def]
  rfl

theorem linesWords?_eq (hchanged : ∀ p, changed? p = some (changed p)) {offset : Nat}
    (hoffset : offset + values.length ≤ Word.max) :
    linesWords? w changed? offset values = some (lines w changed offset values) := by
  refine RunList.mapM_eq_some_map fun item hitem => ?_
  have hrow : (slices perLine values)[item.2]? = some item.1 :=
    List.mem_zipIdx_iff_getElem?.mp hitem
  rw [getElem?_slices, length_slices, Option.ite_none_right_eq_some] at hrow
  obtain ⟨hindex, hitem⟩ := hrow
  -- a line has a first value, so that its place is inside the values
  have hline : perLine * item.2 + item.1.length ≤ values.length := by
    rw [← Option.some.inj hitem, List.length_take, List.length_drop]
    unfold perLine at hindex ⊢
    omega
  have hmul : Word.mul? perLine item.2 = some (perLine * item.2) := Word.mul?_of_le (by omega)
  have hadd : Word.add? offset (perLine * item.2) = some (offset + perLine * item.2) :=
    Word.add?_of_le (by omega)
  unfold rowWords?
  simp only [hmul, hadd, Option.bind_eq_bind, Option.bind_some]
  exact lineWords?_eq hchanged (by omega)

theorem runTextWords?_eq {r : Run} (h : r.stop ≤ Word.max) :
    runTextWords? r = some (runText r) := by
  have hadd : Word.add? r.start r.length = some r.stop := Word.add?_of_le h
  unfold runTextWords?
  rw [hadd]
  rfl

end Dump

namespace Overlay

variable {Q : Nat → Prop} {o : Overlay}

namespace Sound

/-- **A dump of values goes wrong nowhere** if the store reads no more elements than asked for. -/
theorem gives_dumpViewWords? (h : Sound Q o) (hlength : o.length ≤ Word.max) {s : σ}
    (hs : Store.length s ≤ Word.max) (hreads : Store.ReadsWithin (fun _ => True) s)
    (offset count : Nat) :
    Gives (Dump.viewWords? ⟨s, o⟩ offset count) (Dump.view ⟨s, o⟩ offset count) := by
  unfold Dump.viewWords? Dump.view
  refine (h.gives_viewWords? hlength hs offset count).bind fun values hview => ?_
  have hvalues : offset + values.length ≤ Word.max :=
    (Editor.length_le_of_view hreads h.canonical hview).trans hs
  exact Gives.word_bind (Dump.linesWords?_eq (h.isChangedWords?_eq hlength) hvalues) (gives_pure _)

theorem dumpRunsWords?_eq {σ : Type} (h : Sound Q o) (hlength : o.length ≤ Word.max) (s : σ) :
    Dump.runsWords? (⟨s, o⟩ : Editor σ) = some (Dump.runs ⟨s, o⟩) := by
  have htexts : o.runs.mapM Dump.runTextWords? = some (o.runs.map Dump.runText) :=
    RunList.mapM_eq_some_map fun r hr => Dump.runTextWords?_eq (h.stop_le_max hlength r hr)
  unfold Dump.runsWords?
  simp only [htexts, Option.bind_eq_bind, Option.bind_some, Option.pure_def, List.map_map]
  rfl

end Sound

/-- Every call of the overlay, with any arguments that are words, computes in words what it should,
and goes wrong nowhere; so does every call of an editor with it over any store. -/
structure FitsWords (o : Overlay) : Prop where
  change : ∀ {σ : Type} [Store σ] (s : σ) pos values record,
    Gives (o.changeWords? s pos values record) (o.change s pos values record)
  undo : o.undoWords? = some o.undo
  requeue : ∀ pos values, Gives (o.requeueWords? pos values) (o.requeue pos values)
  apply : ∀ target limit, ∀ offset ≤ Word.max,
    o.applyWords? target offset limit = some (o.apply target offset limit)
  changesIn : ∀ count, ∀ offset ≤ Word.max,
    o.changesInWords? offset count = some (o.changesIn offset count)
  isChanged : ∀ p, o.isChangedWords? p = some (o.isChanged p)
  value : ∀ {σ : Type} [Store σ] (s : σ) p, Gives (o.valueWords? s p) (o.value s p)
  values : ∀ {σ : Type} [Store σ] (s : σ) offset count,
    Gives (o.valuesWords? s offset count) (o.values s offset count)
  commit : ∀ {σ : Type} [Store σ] (s : σ), o.commitWords? s = some (o.commit s)
  view : ∀ {σ : Type} [Store σ] (s : σ), Store.length s ≤ Word.max → ∀ offset count,
    Gives (Editor.viewWords? ⟨s, o⟩ offset count) (Editor.view ⟨s, o⟩ offset count)
  /-- With more elements than asked for, lines could have places behind the last word. -/
  dumpView : ∀ {σ : Type} [Store σ] (s : σ), Store.length s ≤ Word.max →
    Store.ReadsWithin (fun _ => True) s → ∀ offset count,
      Gives (Dump.viewWords? ⟨s, o⟩ offset count) (Dump.view ⟨s, o⟩ offset count)
  dumpRuns : ∀ {σ : Type} (s : σ),
    Dump.runsWords? (⟨s, o⟩ : Editor σ) = some (Dump.runs ⟨s, o⟩)

theorem Sound.fitsWords (h : Sound Q o) (hlength : o.length ≤ Word.max) : FitsWords o where
  change := h.gives_changeWords? hlength
  undo := h.undoWords?_eq hlength
  requeue := h.gives_requeueWords? hlength
  apply target limit _ hoffset := h.applyWords?_eq hlength hoffset target limit
  changesIn count _ hoffset := h.changesInWords?_eq hlength hoffset count
  isChanged := h.isChangedWords?_eq hlength
  value := h.gives_valueWords? hlength
  values := h.gives_valuesWords? hlength
  commit := h.commitWords?_eq hlength
  view _ hs := h.gives_viewWords? hlength hs
  dumpView _ hs hreads := h.gives_dumpViewWords? hlength hs hreads
  dumpRuns := h.dumpRunsWords?_eq hlength

/-! ### All states -/

/-- **Machine words suffice.** After any operations on an overlay without changes, for at most as
many elements as a word can count and with stores whose reads give no more elements than asked for,
every call goes wrong nowhere, and the count of dropped entries is no larger than the number of
operations. The same holds of an editor after any script. -/
theorem machine_words_suffice :
    (∀ (width : Width) (length limit : Nat) (ops : List Operation), length ≤ Word.max →
      (∀ op ∈ ops, op.ReadsWithin fun _ => True) →
        FitsWords ((withLimit width length limit).after ops) ∧
          ((withLimit width length limit).after ops).history.dropped ≤ ops.length) ∧
      ∀ {σ : Type} [Store σ] (s : σ) (limit : Nat) (steps : List (Editor.Step σ)),
        Store.length s ≤ Word.max →
        (∀ i, Store.ReadsWithin (fun _ => True)
          ((Editor.withLimit s limit).play (steps.take i)).store) →
          FitsWords ((Editor.withLimit s limit).play steps).overlay := by
  constructor
  · intro width length limit ops hlength hops
    have hstart := sound_withLimit (fun _ => True) width length limit
    obtain ⟨hsound, -, hlengthEq, -⟩ := hstart.after (fun _ _ => trivial) hops
    have hdropped := hstart.dropped_after_le (fun _ _ => trivial) hops
    refine ⟨hsound.fitsWords (hlengthEq.trans_le hlength), hdropped.trans_eq ?_⟩
    exact Nat.zero_add _
  · intro σ _ s limit steps hlength hreads
    obtain ⟨hsound, -, hlengthEq, -⟩ := Editor.sound_play
      (sound_withLimit (fun _ => True) (Store.width s) (Store.length s) limit)
      (fun _ _ => trivial) hreads
    exact hsound.fitsWords (hlengthEq.trans_le hlength)

/-- The same at the end of the longest store there is: a change that reaches the last element, one
that begins behind it, the changes in an interval that would end behind all words, and the dumps. -/
theorem machine_words_suffice_last_words :
    let s : PatternStore := ⟨.w8, Word.max, 256, []⟩
    let ops : List Operation := [.change s (Word.max - 3) [0xab, 1] true,
      .change s (Word.max - 18) [7] true, .undo]
    let o := (withLimit .w8 Word.max 5).after ops
    let steps : List (Editor.Step PatternStore) := [.call (.requeue (Word.max - 1) [2])]
    Store.length s ≤ Word.max ∧ (∀ op ∈ ops, op.ReadsWithin fun _ => True) ∧
      o.runs = [⟨Word.max - 18, [0xed]⟩, ⟨Word.max - 3, [0xab, 1]⟩] ∧
      (o.changeWords? s (Word.max - 1) [9] false).run = some (.ok
        { o with runs := [⟨Word.max - 18, [0xed]⟩, ⟨Word.max - 3, [0xab, 1, 9]⟩] }) ∧
      (o.changeWords? s Word.max [9] true).run =
        some (.error (.rangeOverflow Word.max 1 Word.max)) ∧
      o.changesInWords? (Word.max - 2) Word.max = some [⟨Word.max - 2, [1]⟩] ∧
      (Dump.viewWords? ⟨s, o⟩ (Word.max - 20) Word.max).run = some (.ok (
        "FFFFFFFFFFFFFFEB: EB EC*ED EE EF F0 F1 F2 F3 F4 F5 F6 F7 F8 F9 FA\n" ++
        "FFFFFFFFFFFFFFFB: FB*AB*01 FE\n")) ∧
      (((Editor.withLimit s 5).play steps).overlay.valueWords? s (Word.max - 1)).run =
        some (.ok 2) := by
  intro s ops o steps
  have hs : Store.ReadsWithin (fun _ => True) s := s.exact.readsWithin fun _ _ => trivial
  have hops : ∀ op ∈ ops, op.ReadsWithin fun _ => True := by
    simp only [ops, List.forall_mem_cons]
    exact ⟨hs, hs, trivial, by simp⟩
  have hstore : ∀ i, ((Editor.withLimit s 5).play (steps.take i)).store = s := by
    intro i
    cases i with
    | zero => rfl
    | succ i =>
      rw [List.take_of_length_le (by simp [steps])]
      rfl
  obtain ⟨hwords, -⟩ := machine_words_suffice.1 .w8 Word.max 5 ops (le_refl _) hops
  have hplayed := machine_words_suffice.2 s 5 steps (le_refl _) fun i => by rwa [hstore i]
  refine ⟨le_refl _, hops, by decide, (hwords.change s _ _ _).trans ?_,
    (hwords.change s _ _ _).trans ?_, (hwords.changesIn _ _ (by decide)).trans ?_,
    (hwords.dumpView s (le_refl _) hs _ _).trans ?_, (hplayed.value s _).trans ?_⟩
  · decide
  · decide
  · decide
  · decide
  · decide

end Overlay
end EditOverlay
