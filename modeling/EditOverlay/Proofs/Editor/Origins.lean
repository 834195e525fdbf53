import EditOverlay.Proofs.Editor.Steps
import Mathlib.Data.List.Forall2

/-! # Editors: what an undo takes back

An undo entry is recorded in one state of an editor and used in another one. In between changes may
have been made and undone, blocks put back, runs taken out or written to the store. `recorders`
follows the undo stack through a script: for each entry it has the index of the step that has
recorded it.

* `RecordedAt`: the step is a change, and the entry holds the values that were shown in its range
  just before it.
* `Traced.snoc`: this stays so with every step, `traced` for whole scripts.
* `undo_takes_back_its_change`: so an undo brings these values back, and touches nothing else. -/

namespace EditOverlay.Editor

open RunList

variable {σ : Type} [Store σ] {start e : Editor σ} {steps : List (Step σ)} {step : Step σ}

/-! ### Who has recorded the entries -/

/-- What the step with index `i` does to the recorders of the entries, the newest first: a recorded
change puts itself on top, and an undo takes the newest one off. -/
def Step.recorders (e : Editor σ) (i : Nat) (indices : List Nat) : Step σ → List Nat
  | .call (.change pos values record) =>
    if record = true ∧ values ≠ [] ∧ (e.call (.change pos values record)).2 = .accepted then
      (i :: indices).take e.overlay.history.limit
    else indices
  | .call .undo => indices.tail
  | .call .clear => []
  | _ => indices

/-- The recorders after steps of which the first one has the index `i`. -/
def recordersFrom (e : Editor σ) (i : Nat) (indices : List Nat) : List (Step σ) → List Nat
  | [] => indices
  | step :: steps =>
    recordersFrom (e.perform step).1 (i + 1) (step.recorders e i indices) steps

/-- The indices of the steps that have recorded the entries of the undo stack, the newest first, if
there were none at the start. -/
def recorders (start : Editor σ) (steps : List (Step σ)) : List Nat :=
  recordersFrom start 0 [] steps

theorem recordersFrom_append (e : Editor σ) (i : Nat) (indices : List Nat)
    (steps : List (Step σ)) (step : Step σ) :
    recordersFrom e i indices (steps ++ [step]) =
      step.recorders (e.play steps) (i + steps.length) (recordersFrom e i indices steps) := by
  induction steps generalizing e i indices with
  | nil => rfl
  | cons first steps ih =>
    rw [List.cons_append, recordersFrom, recordersFrom, ih, play_cons, List.length_cons,
      Nat.add_right_comm, Nat.add_assoc]

theorem recorders_append (start : Editor σ) (steps : List (Step σ)) (step : Step σ) :
    start.recorders (steps ++ [step]) =
      step.recorders (start.play steps) steps.length (start.recorders steps) := by
  rw [recorders, recordersFrom_append, Nat.zero_add]
  rfl

theorem Step.recorders_sublist (e : Editor σ) (i : Nat) (indices : List Nat) (step : Step σ) :
    (step.recorders e i indices).Sublist (i :: indices) := by
  have hold : indices.Sublist (i :: indices) := List.sublist_cons_self i indices
  cases step with
  | exchange f => exact hold
  | call c =>
    cases c with
    | change pos values record =>
      rw [Step.recorders]
      split_ifs
      · exact List.take_sublist _ _
      · exact hold
    | undo => exact (List.tail_sublist indices).trans hold
    | clear => exact List.nil_sublist _
    | requeue | popFirst | commit => exact hold

theorem pairwise_recorders (start : Editor σ) (steps : List (Step σ)) :
    (start.recorders steps).Pairwise (· > ·) ∧ ∀ i ∈ start.recorders steps, i < steps.length := by
  induction steps using List.reverseRecOn with
  | nil => exact ⟨List.Pairwise.nil, fun _ hi => (List.not_mem_nil hi).elim⟩
  | append_singleton steps step ih =>
    obtain ⟨hpairwise, hlt⟩ := ih
    rw [recorders_append]
    have hsublist := step.recorders_sublist (start.play steps) steps.length (start.recorders steps)
    refine ⟨(List.pairwise_cons.mpr ⟨hlt, hpairwise⟩).sublist hsublist, fun i hi => ?_⟩
    rw [List.length_append, List.length_singleton]
    rcases List.mem_cons.mp (hsublist.subset hi) with rfl | hi
    · omega
    · have := hlt i hi
      omega

theorem play_append_singleton (start : Editor σ) (steps : List (Step σ)) (step : Step σ) :
    start.play (steps ++ [step]) = ((start.play steps).perform step).1 := play_append start steps _

/-- The step with the index `i` is a change that has recorded the entry: it was accepted, and the
entry holds the values that were shown in its range just before. -/
def RecordedAt (start : Editor σ) (steps : List (Step σ)) (i : Nat) (u : UndoEntry) : Prop :=
  ∃ values, steps[i]? = some (.call (.change u.position values true)) ∧ values ≠ [] ∧
    ((start.play (steps.take i)).call (.change u.position values true)).2 = .accepted ∧
    u.previous.length = values.length ∧
    ∀ k v, u.previous[k]? = some v →
      (start.play (steps.take i)).value (u.position + k) = .ok v

theorem RecordedAt.append {i : Nat} {u : UndoEntry} (h : RecordedAt start steps i u)
    (step : Step σ) : RecordedAt start (steps ++ [step]) i u := by
  obtain ⟨values, hstep, hrest⟩ := h
  have hi : i < steps.length := (List.getElem?_eq_some_iff.mp hstep).1
  refine ⟨values, ?_, ?_⟩
  · rw [List.getElem?_append_left hi]
    exact hstep
  · rw [List.take_append_of_le_length hi.le]
    exact hrest

/-- **A recorded change** has its values from what is shown before. -/
theorem recordedAt_length {contents previous : List Nat} {pos : Nat} {values : List Nat}
    (hexact : Store.Exact (start.play steps).store contents)
    (hcanonical : Canonical (start.play steps).overlay.runs) (hne : values ≠ [])
    (hprevious : (start.play steps).values pos values.length = .ok previous)
    (haccepted : ((start.play steps).call (.change pos values true)).2 = .accepted) :
    RecordedAt start (steps ++ [.call (.change pos values true)]) steps.length ⟨pos, previous⟩ := by
  refine ⟨values, ?_, hne, ?_⟩
  · rw [List.getElem?_append_right (le_refl _), Nat.sub_self]
    rfl
  · rw [List.take_left]
    obtain ⟨hrange, hslice⟩ := Overlay.slice_of_values hcanonical hexact.readsTruly hprevious
    refine ⟨haccepted, ?_, fun k v hv => ?_⟩
    · rw [← hslice, List.length_drop, List.length_take, length_overlaid]
      omega
    · exact Overlay.value_of_values hcanonical hexact hprevious hv

/-! ### The entries of an editor after steps -/

/-- The overlay is sound, and each entry is recorded by the step that the recorders have for it. -/
structure Traced (start : Editor σ) (steps : List (Step σ)) : Prop where
  sound : (start.play steps).overlay.Sound fun _ => True
  recorded : List.Forall₂ (RecordedAt start steps) (start.recorders steps)
    (start.play steps).overlay.history.entries

namespace Traced

theorem fresh (s : σ) (width : Width) (length limit : Nat) :
    Traced ⟨s, Overlay.withLimit width length limit⟩ [] :=
  ⟨Overlay.sound_withLimit _ width length limit, List.Forall₂.nil⟩

theorem sound_snoc (h : Traced start steps)
    (hexact : ∃ contents, Store.Exact (start.play steps).store contents) (step : Step σ) :
    (start.play (steps ++ [step])).overlay.Sound fun _ => True := by
  rw [play_append_singleton]
  cases step with
  | exchange f => exact h.sound
  | call c =>
    obtain ⟨contents, hcontents⟩ := hexact
    have hreads : (c.onOverlay (start.play steps).store).ReadsWithin fun _ => True := by
      cases c with
      | change pos values record => exact hcontents.readsWithin fun _ _ => trivial
      | _ => trivial
    have hoverlay := overlay_call (start.play steps) c
    rw [perform, hoverlay]
    exact h.sound.run (fun _ _ => trivial) hreads

theorem change (h : Traced start steps)
    (hexact : ∃ contents, Store.Exact (start.play steps).store contents) (pos : Nat)
    (values : List Nat) (record : Bool) :
    List.Forall₂ (RecordedAt start (steps ++ [.call (.change pos values record)]))
      ((Step.call (.change pos values record)).recorders (start.play steps) steps.length
        (start.recorders steps))
      ((start.play steps).call (.change pos values record)).1.overlay.history.entries := by
  have hold : List.Forall₂ (RecordedAt start (steps ++ [.call (.change pos values record)]))
      (start.recorders steps) (start.play steps).overlay.history.entries :=
    h.recorded.imp fun _ _ hu => hu.append _
  rw [Step.recorders]
  split_ifs with hrecords
  · -- the change is on top of both, and both are cut at the limit
    obtain ⟨rfl, hne, haccepted⟩ := hrecords
    obtain ⟨contents, hcontents⟩ := hexact
    cases hchange : (start.play steps).overlay.change (start.play steps).store pos values true with
    | error err =>
      rw [call_change_of_error hchange] at haccepted
      cases haccepted
    | ok o =>
      obtain ⟨previous, hprevious, rfl⟩ := Overlay.recorded_eq_ok hchange hne
      have hnew := recordedAt_length hcontents h.sound.canonical hne hprevious haccepted
      rw [call_change_of_ok hchange, Overlay.merge_history]
      exact List.forall₂_take _ (hold.cons hnew)
  · -- nothing is recorded, and the stack stays
    cases hchange :
        (start.play steps).overlay.change (start.play steps).store pos values record with
    | error err =>
      rw [call_change_of_error hchange]
      exact hold
    | ok o =>
      obtain ⟨-, -, ⟨-, rfl⟩ | ⟨hne, rfl, -⟩⟩ := Overlay.change_eq_ok hchange
      · rw [call_change_of_ok hchange, Overlay.merge_history]
        exact hold
      · rw [call_change_of_ok hchange] at hrecords
        exact absurd ⟨rfl, hne, rfl⟩ hrecords

/-- **Every step keeps the entries and their recorders together.** -/
theorem snoc (h : Traced start steps)
    (hexact : ∃ contents, Store.Exact (start.play steps).store contents) (step : Step σ) :
    Traced start (steps ++ [step]) := by
  refine ⟨h.sound_snoc hexact step, ?_⟩
  have hold : List.Forall₂ (RecordedAt start (steps ++ [step])) (start.recorders steps)
      (start.play steps).overlay.history.entries :=
    h.recorded.imp fun _ _ hu => hu.append step
  rw [recorders_append, play_append_singleton]
  cases step with
  | exchange f => exact hold
  | call c =>
    cases c with
    | change pos values record => exact h.change hexact pos values record
    | undo =>
      rw [perform, entries_call_undo, Step.recorders, ← List.drop_one, ← List.drop_one]
      exact List.forall₂_drop 1 hold
    | requeue pos values =>
      rw [perform, history_call_requeue]
      exact hold
    | popFirst =>
      rw [perform, history_call_popFirst]
      exact hold
    | commit =>
      rw [perform, history_call_commit]
      exact hold
    | clear => exact List.Forall₂.nil

end Traced

/-- **Scripts** keep the entries and their recorders together, if the store is read exactly all the
time. -/
theorem traced {s : σ} {width : Width} {length limit : Nat}
    (hexact : ∀ i, ∃ contents, Store.Exact
      (play ⟨s, Overlay.withLimit width length limit⟩ (steps.take i)).store contents) :
    Traced ⟨s, Overlay.withLimit width length limit⟩ steps := by
  induction steps using List.reverseRecOn with
  | nil => exact Traced.fresh s width length limit
  | append_singleton steps step ih =>
    have hbefore : ∀ i ≤ steps.length, (steps ++ [step]).take i = steps.take i :=
      fun i hi => List.take_append_of_le_length hi
    refine (ih fun i => ?_).snoc ?_ step
    · have hi := hexact (min i steps.length)
      rwa [hbefore _ (Nat.min_le_right _ _), ← List.take_eq_take_min] at hi
    · have hlast := hexact steps.length
      rwa [hbefore _ (le_refl _), List.take_length] at hlast

/-! ### Taking back -/

/-- **An undo takes back the change that has recorded its entry,** whatever has happened since. The
store is read exactly all the time, and may fail to be written. Then in the range of the change the
values are shown again that were shown just before it; elsewhere nothing changes, and the positions
in the range count as changed. The entry leaves the stack, and nothing else does. Without an entry
nothing happens. -/
theorem undo_takes_back_its_change (s : σ) (width : Width) (length limit : Nat)
    {steps : List (Step σ)}
    (hexact : ∀ i, ∃ contents, Store.Exact
      (play ⟨s, Overlay.withLimit width length limit⟩ (steps.take i)).store contents) :
    let start : Editor σ := ⟨s, Overlay.withLimit width length limit⟩
    let e := start.play steps
    (e.overlay.history.entries = [] → e.undo = (0, e)) ∧
      (start.recorders steps).length = e.overlay.history.depth ∧
      (start.recorders steps).Pairwise (· > ·) ∧
      ∀ i older, start.recorders steps = i :: older →
        ∃ pos values, steps[i]? = some (.call (.change pos values true)) ∧ values ≠ [] ∧
          ((start.play (steps.take i)).call (.change pos values true)).2 = .accepted ∧
          e.undo.1 = pos ∧
          (∀ p, pos ≤ p → p < pos + values.length →
            ∃ v, (start.play (steps.take i)).value p = .ok v ∧ e.undo.2.value p = .ok v) ∧
          (∀ p, p < pos ∨ pos + values.length ≤ p → e.undo.2.value p = e.value p) ∧
          (∀ p, e.undo.2.overlay.isChanged p = true ↔
            e.overlay.isChanged p = true ∨ pos ≤ p ∧ p < pos + values.length) ∧
          (∃ u rest, e.overlay.history.entries = u :: rest ∧
            e.undo.2.overlay.history = { e.overlay.history with entries := rest }) ∧
          e.undo.2.store = e.store ∧ start.recorders (steps ++ [.call .undo]) = older := by
  have htraced := traced hexact
  intro start e
  refine ⟨fun hnil => ?_, htraced.recorded.length_eq, (pairwise_recorders start steps).1,
    fun i older hrecorders => ?_⟩
  · unfold undo
    rw [Overlay.undo_of_entries_eq_nil hnil]
  have hrecorded : List.Forall₂ (RecordedAt start steps) (start.recorders steps)
      e.overlay.history.entries := htraced.recorded
  rw [hrecorders, List.forall₂_cons_left_iff] at hrecorded
  obtain ⟨u, rest, ⟨values, hstep, hne, haccepted, hlength, hvalues⟩, -, hentries⟩ := hrecorded
  have hwithin : u.position + u.previous.length ≤ e.overlay.length :=
    (htraced.sound.undo_within u (by rw [hentries]; exact List.mem_cons_self)).1
  have hposition : e.undo.1 = u.position := (Overlay.valueAt?_undo hentries).1
  obtain ⟨hback, helsewhere, hchanged⟩ := Overlay.value_undo e.store hentries hwithin
  rw [hlength] at helsewhere hchanged
  refine ⟨u.position, values, hstep, hne, haccepted, hposition, fun p hle hlt => ?_,
    helsewhere, hchanged, ⟨u, rest, hentries, ?_⟩, rfl, ?_⟩
  · obtain ⟨k, rfl⟩ := Nat.exists_eq_add_of_le hle
    have hk : k < u.previous.length := by omega
    have hv : u.previous[k]? = some u.previous[k] := List.getElem?_eq_getElem hk
    exact ⟨_, hvalues k _ hv, hback k _ hv⟩
  · have hoverlay : e.undo.2.overlay = _ :=
      congrArg Prod.snd (Overlay.undo_of_entries_eq_cons hentries)
    rw [hoverlay, Overlay.merge_history]
  · rw [recorders_append, Step.recorders, hrecorders, List.tail_cons]

/-- The first run of a change is in the store, the second one is taken out after a failed commit,
and another change covers half of the range. The undo brings back what was there before all that. -/
theorem undo_takes_back_its_change_committed :
    let s : Unsteady MemoryStore := ⟨MemoryStore.zeroed .w8 8,
      fun n => if n = 1 then some (.writeFailed 6 "device") else none, 0⟩
    let start : Editor (Unsteady MemoryStore) := ⟨s, Overlay.withLimit .w8 8 2⟩
    let steps : List (Step (Unsteady MemoryStore)) := [.call (.change 3 [5] true),
      .call (.change 2 [9, 9] true), .call (.change 6 [8] false), .call .commit, .call .popFirst,
      .call (.change 3 [1, 7] false)]
    let e := start.play steps
    (∀ i, ∃ contents, Store.Exact (start.play (steps.take i)).store contents) ∧
      start.recorders steps = [1, 0] ∧ e.store.store.elements = [0, 0, 9, 9, 0, 0, 0, 0] ∧
      e.values 0 8 = .ok [0, 0, 9, 1, 7, 0, 0, 0] ∧ e.undo.1 = 2 ∧
      (∀ p, 2 ≤ p → p < 4 →
        ∃ v, (start.play (steps.take 1)).value p = .ok v ∧ e.undo.2.value p = .ok v) ∧
      (∀ p, p < 2 ∨ 4 ≤ p → e.undo.2.value p = e.value p) ∧
      e.undo.2.values 0 8 = .ok [0, 0, 0, 5, 7, 0, 0, 0] := by
  intro s start steps e
  have hexact : ∀ i, ∃ contents, Store.Exact (start.play (steps.take i)).store contents :=
    fun i => ⟨_, Unsteady.exact (MemoryStore.exact _)⟩
  obtain ⟨-, -, -, hback⟩ := undo_takes_back_its_change s .w8 8 2 hexact
  obtain ⟨pos, values, hstep, -, -, hpos, hrange, helsewhere, -⟩ := hback 1 [0] (by decide)
  cases hstep
  exact ⟨hexact, by decide, by decide, by decide, hpos, hrange, helsewhere, by decide⟩

end EditOverlay.Editor
