import EditOverlay.Proofs.Overlay.Commit

/-! # Overlays: what holds after every operation

`Sound Q` says that the runs are canonical, that runs and undo entries lie within the elements and
hold allowed values only, and that the undo stack keeps its limit. Which values are allowed depends
on the stores: with `Q := Width.Fits w` the reads give values that fit, with `Q := fun _ => True`
only their number is bounded.

* `effect_run`: an operation makes one of six kinds of changes to a sound overlay (`Effect`).
* `Sound.run`: each kind keeps the invariant, whatever the arguments are and whatever fails.
* `Sound.after`, `Reachable.sound`: so it holds after every list of operations.
* `runs_and_history_after`: the same spelled out, for stores whose reads give values that fit. -/

namespace EditOverlay.Overlay

open RunList

variable {σ : Type} [Store σ] {Q : Nat → Prop} {o o' : Overlay}

/-- The invariant of overlays, with `Q` for the values that stores may give. -/
structure Sound (Q : Nat → Prop) (o : Overlay) : Prop where
  canonical : Canonical o.runs
  runs_within : ∀ r ∈ o.runs, r.Within Q o.length
  undo_within : ∀ e ∈ o.history.entries, e.toRun.Within Q o.length
  depth_le : o.history.depth ≤ o.history.limit

theorem sound_withLimit (Q : Nat → Prop) (width : Width) (length limit : Nat) :
    Sound Q (withLimit width length limit) :=
  ⟨canonical_nil, by simp [withLimit], by simp [withLimit, History.empty], Nat.zero_le _⟩

theorem Sound.values_within {s : σ} {pos count : Nat} {previous : List Nat} (h : Sound Q o)
    (hs : Store.ReadsWithin Q s) (hprev : o.values s pos count = .ok previous) :
    Run.Within Q o.length ⟨pos, previous⟩ := by
  obtain ⟨hrange, -, elements, hread, rfl⟩ := values_eq_ok hprev
  obtain ⟨hcount, hallowed⟩ := hs pos count elements hread
  unfold apply
  refine ⟨?_, forall_mem_apply h.canonical h.runs_within hallowed _ _⟩
  simp only [Run.stop, Run.length, length_apply h.canonical]
  omega

/-! ### The kinds of changes -/

/-- The kinds of changes that operations make to an overlay. -/
inductive Effect (Q : Nat → Prop) (o : Overlay) : Overlay → Prop
  | nothing : Effect Q o o
  | merge {pos : Nat} {values : List Nat} (valid : Run.Within o.width.Fits o.length ⟨pos, values⟩) :
    Effect Q o (o.merge pos values)
  | record {pos : Nat} {values previous : List Nat}
    (valid : Run.Within o.width.Fits o.length ⟨pos, values⟩)
    (before : Run.Within Q o.length ⟨pos, previous⟩) :
    Effect Q o ({ o with history := o.history.push ⟨pos, previous⟩ }.merge pos values)
  | undo {e : UndoEntry} {rest : List UndoEntry} (newest : o.history.entries = e :: rest) :
    Effect Q o
      ({ o with history := { o.history with entries := rest } }.merge e.position e.previous)
  | drop (k : Nat) : Effect Q o { o with runs := o.runs.drop k }
  | clear : Effect Q o o.clear

/-- **What an operation does to a sound overlay** is of one of the kinds. -/
theorem effect_run (h : Sound Q o) {op : Operation} (hop : op.ReadsWithin Q) :
    Effect Q o (op.run o) := by
  cases op with
  | change store pos values record =>
    cases hchange : o.change store pos values record with
    | error e =>
      simp only [Operation.run, hchange]
      exact .nothing
    | ok o' =>
      simp only [Operation.run, hchange]
      obtain ⟨-, hb, ⟨-, rfl⟩ | ⟨-, -, previous, hprev, rfl⟩⟩ := change_eq_ok hchange
      · exact .merge hb
      · exact .record hb (h.values_within hop hprev)
  | undo =>
    rw [Operation.run]
    cases hentries : o.history.entries with
    | nil =>
      rw [undo_of_entries_eq_nil hentries]
      exact .nothing
    | cons e rest =>
      rw [undo_of_entries_eq_cons hentries]
      exact .undo hentries
  | requeue pos values =>
    cases hrequeue : o.requeue pos values with
    | error e =>
      simp only [Operation.run, hrequeue]
      exact .nothing
    | ok o' =>
      simp only [Operation.run, hrequeue]
      obtain ⟨hb, rfl⟩ := requeue_eq_ok_iff.mp hrequeue
      exact .merge hb
  | popFirst =>
    obtain ⟨-, hpop⟩ | ⟨r, rest, hr, hpop⟩ := o.popFirst_cases
    · simp only [Operation.run, hpop]
      exact .nothing
    · simp only [Operation.run, hpop]
      have hdrop := Effect.drop (Q := Q) (o := o) 1
      rwa [hr, List.drop_one, List.tail_cons] at hdrop
  | commit store =>
    obtain ⟨k, hk⟩ := exists_commit_overlay h.canonical store
    rw [Operation.run, hk]
    exact .drop k
  | clear => exact .clear

theorem Effect.frame (h : Effect Q o o') :
    o'.width = o.width ∧ o'.length = o.length ∧ o'.history.limit = o.history.limit := by
  cases h with
  | nothing => exact ⟨rfl, rfl, rfl⟩
  | merge => simp
  | record => simp [History.push]
  | undo => simp
  | drop => exact ⟨rfl, rfl, rfl⟩
  | clear => exact ⟨rfl, rfl, rfl⟩

/-! ### The invariant is kept -/

namespace Sound

theorem merge {pos : Nat} {values : List Nat} (h : Sound Q o)
    (hb : Run.Within Q o.length ⟨pos, values⟩) : Sound Q (o.merge pos values) := by
  by_cases hne : values = []
  · rw [hne, merge_nil]
    exact h
  · rw [merge_of_ne_nil o pos hne]
    exact ⟨h.canonical.write hne, forall_within_write hb h.runs_within, h.undo_within, h.depth_le⟩

theorem push {e : UndoEntry} (h : Sound Q o) (he : e.toRun.Within Q o.length) :
    Sound Q { o with history := o.history.push e } := by
  refine ⟨h.canonical, h.runs_within, fun x hx => ?_, o.history.depth_push_le e⟩
  rcases History.mem_push hx with hx | hx
  · rw [hx]
    exact he
  · exact h.undo_within x hx

theorem pop {e : UndoEntry} {rest : List UndoEntry} (h : Sound Q o)
    (he : o.history.entries = e :: rest) :
    e.toRun.Within Q o.length ∧
      Sound Q { o with history := { o.history with entries := rest } } := by
  have hmem : ∀ x ∈ e :: rest, x.toRun.Within Q o.length := fun x hx =>
    h.undo_within x (by rwa [he])
  have hdepth := h.depth_le
  rw [History.depth, he, List.length_cons] at hdepth
  exact ⟨hmem e List.mem_cons_self, h.canonical, h.runs_within,
    fun x hx => hmem x (List.mem_cons_of_mem _ hx), by unfold History.depth; simp only; omega⟩

theorem drop (h : Sound Q o) (k : Nat) : Sound Q { o with runs := o.runs.drop k } :=
  ⟨h.canonical.drop k, fun r hr => h.runs_within r (List.mem_of_mem_drop hr), h.undo_within,
    h.depth_le⟩

theorem clear (o : Overlay) : Sound Q o.clear := sound_withLimit Q o.width o.length o.history.limit

theorem effect (h : Sound Q o) (hQ : ∀ v, o.width.Fits v → Q v) (heffect : Effect Q o o') :
    Sound Q o' := by
  have hallowed : ∀ {r : Run}, r.Within o.width.Fits o.length → r.Within Q o.length :=
    fun hr => ⟨hr.1, fun v hv => hQ v (hr.2 v hv)⟩
  cases heffect with
  | nothing => exact h
  | merge hb => exact h.merge (hallowed hb)
  | record hb hbefore => exact (h.push (e := ⟨_, _⟩) hbefore).merge (hallowed hb)
  | undo he =>
    obtain ⟨hentry, hpop⟩ := h.pop he
    exact hpop.merge hentry
  | drop k => exact h.drop k
  | clear => exact clear o

theorem run (h : Sound Q o) (hQ : ∀ v, o.width.Fits v → Q v) {op : Operation}
    (hop : op.ReadsWithin Q) : Sound Q (op.run o) := h.effect hQ (effect_run h hop)

theorem after (h : Sound Q o) (hQ : ∀ v, o.width.Fits v → Q v) {ops : List Operation}
    (hops : ∀ op ∈ ops, op.ReadsWithin Q) :
    Sound Q (o.after ops) ∧ (o.after ops).width = o.width ∧ (o.after ops).length = o.length ∧
      (o.after ops).history.limit = o.history.limit := by
  induction ops generalizing o with
  | nil => exact ⟨h, rfl, rfl, rfl⟩
  | cons op ops ih =>
    have hop := hops op List.mem_cons_self
    obtain ⟨hwidth, hlength, hlimit⟩ := (effect_run h hop).frame
    obtain ⟨hs, hw, hn, hl⟩ := ih (h.run hQ hop) (by rwa [hwidth])
      fun op' hop' => hops op' (List.mem_cons_of_mem _ hop')
    exact ⟨hs, hw.trans hwidth, hn.trans hlength, hl.trans hlimit⟩

end Sound

/-- **The invariant holds wherever operations lead.** -/
theorem Reachable.sound (h : Reachable Q o) (hQ : ∀ v, o.width.Fits v → Q v) : Sound Q o := by
  obtain ⟨width, length, limit, ops, hops, rfl⟩ := h
  -- the width stays, whichever values the stores give
  have hany := (sound_withLimit (fun _ => True) width length limit).after (fun _ _ => trivial)
    fun op hop => (hops op hop).mono fun _ _ => trivial
  rw [hany.2.1] at hQ
  exact ((sound_withLimit Q width length limit).after hQ hops).1

/-- **Runs and undo stack after any operations.** The stores may fail any read and any write; where
a read succeeds, it gives no more elements than asked for, and they fit. Then the runs are not
empty, lie within the elements, hold values that fit, and neither meet nor touch; the undo entries
lie within the elements, hold values that fit, and are no more than the limit. -/
theorem runs_and_history_after (width : Width) (length limit : Nat) (ops : List Operation)
    (hops : ∀ op ∈ ops, op.ReadsWithin width.Fits) :
    let o := (withLimit width length limit).after ops
    (∀ r ∈ o.runs, r.values ≠ [] ∧ r.start + r.values.length ≤ length) ∧
      o.runs.Pairwise (fun r s => r.start + r.values.length < s.start) ∧
      (∀ r ∈ o.runs, ∀ v ∈ r.values, width.Fits v) ∧
      (∀ e ∈ o.history.entries,
        e.position + e.previous.length ≤ length ∧ ∀ v ∈ e.previous, width.Fits v) ∧
      o.history.entries.length ≤ limit := by
  obtain ⟨hs, hwidth, hlength, hlimit⟩ :=
    (sound_withLimit width.Fits width length limit).after (fun v hv => hv) hops
  have hl : ((withLimit width length limit).after ops).length = length := hlength
  intro o
  refine ⟨fun r hr => ⟨hs.canonical.nonempty r hr, hl ▸ (hs.runs_within r hr).1⟩,
    hs.canonical.apart, fun r hr => (hs.runs_within r hr).2, fun e he => ?_, ?_⟩
  · exact ⟨hl ▸ (hs.undo_within e he).1, (hs.undo_within e he).2⟩
  · exact hs.depth_le.trans_eq hlimit

/-- The same after changes of a store that fails a read and a write and cuts reads short: one change
is refused, and the undo brings back two elements of three. -/
theorem runs_and_history_after_faults :
    let s : Faulty MemoryStore := ⟨MemoryStore.zeroed .w8 20, ⟨[0], [8], some 2⟩⟩
    let ops : List Operation := [.change s 2 [1] true, .change s 8 [2, 2, 2] true,
      .change s 0 [7] true, .change s 15 [3] false, .undo, .requeue 3 [9], .commit s,
      .change s 18 [255] true, .change s 19 [4] true]
    let o := (withLimit .w8 20 1).after ops
    (∀ op ∈ ops, op.ReadsWithin Width.w8.Fits) ∧
      o.runs = [⟨8, [0, 0, 2]⟩, ⟨15, [3]⟩, ⟨18, [255, 4]⟩] ∧ o.history.entries = [⟨19, [0]⟩] ∧
      (∀ r ∈ o.runs, r.values ≠ [] ∧ r.start + r.values.length ≤ 20) ∧
      o.runs.Pairwise (fun r s => r.start + r.values.length < s.start) ∧
      (∀ r ∈ o.runs, ∀ v ∈ r.values, Width.w8.Fits v) ∧
      (∀ e ∈ o.history.entries,
        e.position + e.previous.length ≤ 20 ∧ ∀ v ∈ e.previous, Width.w8.Fits v) ∧
      o.history.entries.length ≤ 1 := by
  intro s ops
  have hs : Store.ReadsWithin Width.w8.Fits s :=
    Faulty.readsWithin ((MemoryStore.zeroed .w8 20).exact.readsWithin (by decide))
  have hops : ∀ op ∈ ops, op.ReadsWithin Width.w8.Fits := by
    simp only [ops, List.forall_mem_cons]
    exact ⟨hs, hs, hs, hs, trivial, trivial, trivial, hs, hs, by simp⟩
  exact ⟨hops, by decide, by decide, runs_and_history_after .w8 20 1 ops hops⟩

end EditOverlay.Overlay
