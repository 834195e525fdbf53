import EditOverlay.Proofs.Editor.Edits
import EditOverlay.Proofs.Editor.Steps

/-! # Editors: the limit of the undo stack

The limit bounds how far changes can be undone, and nothing else. Two editors that differ in their
limits do the same and answer the same, as long as no undo in the one with the smaller limit comes
too late: their histories are related by `History.Narrower` all the time
(`exists_call_withHistory` for one call, `exists_play_withHistory` for scripts).

How far that is: after edits in a row, as many undos take effect as there are edits and the limit
allows. What is shown after them is what was shown before the first edit that was undone. This
follows from the snapshots that the entries stand for; of the store they need only that reads which
succeed give its elements (`Recalls`, `iterate_undo_changeAll`). -/

namespace EditOverlay

/-! ### Histories with another limit -/

namespace History

/-- The history `h` holds the newest entries of `k`, and has no larger limit. -/
structure Narrower (h k : History) : Prop where
  entries_prefix : h.entries <+: k.entries
  limit_le : h.limit ≤ k.limit

namespace Narrower

variable {h k : History}

/-- **A push keeps the newest entries,** also if it drops some in one history and none in the
other. -/
theorem push (hk : h.Narrower k) (e : UndoEntry) : (h.push e).Narrower (k.push e) := by
  have hcons : e :: h.entries <+: e :: k.entries :=
    List.cons_prefix_cons.mpr ⟨rfl, hk.entries_prefix⟩
  exact ⟨(hcons.take h.limit).trans (List.take_prefix_take_left hk.limit_le), hk.limit_le⟩

theorem clear (hk : h.Narrower k) : h.clear.Narrower k.clear := ⟨List.prefix_refl [], hk.limit_le⟩

theorem pop (hk : h.Narrower k) {e : UndoEntry} {rest : List UndoEntry}
    (hentries : h.entries = e :: rest) : ∃ rest', k.entries = e :: rest' ∧
      Narrower { h with entries := rest } { k with entries := rest' } := by
  have hprefix := hk.entries_prefix
  rw [hentries] at hprefix
  cases hentries' : k.entries with
  | nil =>
    rw [hentries'] at hprefix
    exact absurd (List.prefix_nil.mp hprefix) (List.cons_ne_nil _ _)
  | cons e' rest' =>
    rw [hentries'] at hprefix
    obtain ⟨rfl, hrest⟩ := List.cons_prefix_cons.mp hprefix
    exact ⟨rest', rfl, hrest, hk.limit_le⟩

end Narrower

theorem depth_push (h : History) (e : UndoEntry) :
    (h.push e).depth = min h.limit (h.depth + 1) := by
  simp only [push, depth, List.length_take, List.length_cons]

end History

theorem Overlay.undo_withHistory {o : Overlay} {k : History} {u : UndoEntry}
    {rest rest' : List UndoEntry} (h : o.history.entries = u :: rest)
    (hk : k.entries = u :: rest') :
    (o.withHistory k).undo = (o.undo.1, o.undo.2.withHistory { k with entries := rest' }) ∧
      o.undo.2.history = { o.history with entries := rest } := by
  have hwide : (o.withHistory k).undo = (u.position,
      (o.withHistory { k with entries := rest' }).merge u.position u.previous) :=
    undo_of_entries_eq_cons hk
  have hnarrow : o.undo = (u.position,
      (o.withHistory { o.history with entries := rest }).merge u.position u.previous) :=
    undo_of_entries_eq_cons h
  rw [hwide, hnarrow, merge_withHistory, merge_withHistory]
  exact ⟨rfl, rfl⟩

theorem Overlay.hasUndo_iff {o : Overlay} : o.hasUndo = true ↔ 0 < o.history.depth := by
  rw [hasUndo, Bool.not_eq_true', List.isEmpty_eq_false_iff, History.depth, List.length_pos_iff]

theorem Overlay.depth_undo (o : Overlay) : o.undo.2.history.depth = o.history.depth - 1 := by
  cases hentries : o.history.entries with
  | nil =>
    rw [undo_of_entries_eq_nil hentries, History.depth, hentries]
    rfl
  | cons u rest =>
    rw [undo_of_entries_eq_cons hentries, merge_history, History.depth, History.depth, hentries]
    rfl

namespace Editor

open RunList

variable {σ : Type} [Store σ] {e e' : Editor σ} {k : History}

/-- The editor with another history. -/
def withHistory (e : Editor σ) (k : History) : Editor σ :=
  { e with overlay := e.overlay.withHistory k }

/-- The editor with another limit for the undo stack. -/
def withStackLimit (e : Editor σ) (limit : Nat) : Editor σ :=
  e.withHistory { e.overlay.history with limit := limit }

/-! ### Two editors with different limits -/

theorem exists_call_change_withHistory (hk : e.overlay.history.Narrower k) (pos : Nat)
    (values : List Nat) (record : Bool) :
    ∃ k', (e.call (.change pos values record)).1.overlay.history.Narrower k' ∧
      (e.withHistory k).call (.change pos values record) =
        ((e.call (.change pos values record)).1.withHistory k',
          (e.call (.change pos values record)).2) := by
  cases hchange : e.overlay.change e.store pos values record with
  | error err =>
    have hwide := Overlay.change_withHistory_of_error hchange k
    rw [call_change_of_error hchange, call_change_of_error (e := e.withHistory k) hwide]
    exact ⟨k, hk, rfl⟩
  | ok o =>
    rw [call_change_of_ok hchange]
    rcases Overlay.change_withHistory_of_ok hchange k with ⟨hsame, hwide⟩ | ⟨u, hpush, hwide⟩
    · rw [call_change_of_ok (e := e.withHistory k) hwide]
      refine ⟨k, ?_, rfl⟩
      rw [hsame]
      exact hk
    · rw [call_change_of_ok (e := e.withHistory k) hwide]
      refine ⟨k.push u, ?_, rfl⟩
      rw [hpush]
      exact hk.push u

theorem exists_call_undo_withHistory (hk : e.overlay.history.Narrower k)
    (hundo : e.overlay.hasUndo = true) :
    ∃ k', (e.call .undo).1.overlay.history.Narrower k' ∧
      (e.withHistory k).call .undo = ((e.call .undo).1.withHistory k', (e.call .undo).2) := by
  cases hentries : e.overlay.history.entries with
  | nil =>
    rw [Overlay.hasUndo, hentries] at hundo
    cases hundo
  | cons u rest =>
    obtain ⟨rest', hentries', hrest⟩ := hk.pop hentries
    obtain ⟨hwide, hnarrow⟩ := Overlay.undo_withHistory hentries hentries'
    have hundone : (e.withHistory k).undo =
        (e.undo.1, e.undo.2.withHistory { k with entries := rest' }) := by
      unfold undo withHistory
      rw [hwide]
    refine ⟨{ k with entries := rest' }, ?_, ?_⟩
    · rwa [show (e.call .undo).1.overlay.history = _ from hnarrow]
    · rw [call, call, hundone]

theorem call_requeue_withHistory (e : Editor σ) (k : History) (pos : Nat) (values : List Nat) :
    (e.withHistory k).call (.requeue pos values) =
      ((e.call (.requeue pos values)).1.withHistory k, (e.call (.requeue pos values)).2) := by
  have hwide := Overlay.requeue_withHistory e.overlay k pos values
  cases hrequeue : e.overlay.requeue pos values with
  | error err =>
    rw [hrequeue] at hwide
    rw [call_requeue_of_error hrequeue, call_requeue_of_error (e := e.withHistory k) hwide]
  | ok o =>
    rw [hrequeue] at hwide
    rw [call_requeue_of_ok hrequeue, call_requeue_of_ok (e := e.withHistory k) hwide]
    rfl

theorem call_popFirst_withHistory (e : Editor σ) (k : History) :
    (e.withHistory k).call .popFirst =
      ((e.call .popFirst).1.withHistory k, (e.call .popFirst).2) := by
  have hwide := Overlay.popFirst_withHistory e.overlay k
  obtain ⟨-, hpop⟩ | ⟨r, rest, -, hpop⟩ := e.overlay.popFirst_cases
  · rw [hpop] at hwide
    rw [call_popFirst_of_none hpop, call_popFirst_of_none (e := e.withHistory k) hwide]
  · rw [hpop] at hwide
    rw [call_popFirst_of_some hpop, call_popFirst_of_some (e := e.withHistory k) hwide]
    rfl

theorem call_commit_withHistory (e : Editor σ) (k : History) :
    (e.withHistory k).call .commit = ((e.call .commit).1.withHistory k, (e.call .commit).2) := by
  have hwide : (e.withHistory k).save = (e.save.1.withHistory k, e.save.2) := by
    unfold save withHistory
    rw [Overlay.commit_withHistory]
  rw [call, call, hwide]

/-- **A call gives the same with more history,** unless it is an undo without an entry. The newest
entries stay the same. -/
theorem exists_call_withHistory (hk : e.overlay.history.Narrower k) {c : Call}
    (hfound : c = .undo → e.overlay.hasUndo = true) :
    ∃ k', (e.call c).1.overlay.history.Narrower k' ∧
      (e.withHistory k).call c = ((e.call c).1.withHistory k', (e.call c).2) := by
  cases c with
  | change pos values record => exact exists_call_change_withHistory hk pos values record
  | undo => exact exists_call_undo_withHistory hk (hfound rfl)
  | requeue pos values =>
    refine ⟨k, ?_, call_requeue_withHistory e k pos values⟩
    rwa [history_call_requeue]
  | popFirst =>
    refine ⟨k, ?_, call_popFirst_withHistory e k⟩
    rwa [history_call_popFirst]
  | commit =>
    refine ⟨k, ?_, call_commit_withHistory e k⟩
    rwa [history_call_commit]
  | clear => exact ⟨k.clear, hk.clear, rfl⟩

theorem exists_perform_withHistory (hk : e.overlay.history.Narrower k) {step : Step σ}
    (hfound : step = .call .undo → e.overlay.hasUndo = true) :
    ∃ k', (e.perform step).1.overlay.history.Narrower k' ∧
      (e.withHistory k).perform step = ((e.perform step).1.withHistory k', (e.perform step).2) := by
  cases step with
  | call c =>
    obtain ⟨k', hk', hcall⟩ := exists_call_withHistory hk fun hc => hfound (congrArg Step.call hc)
    refine ⟨k', hk', ?_⟩
    rw [perform, perform, hcall]
  | exchange f => exact ⟨k, hk, rfl⟩

/-- **A script gives the same with more history,** if every undo in it finds an entry. -/
theorem exists_play_withHistory (hk : e.overlay.history.Narrower k) {steps : List (Step σ)}
    (hfound : ∀ i, steps[i]? = some (.call .undo) →
      (e.play (steps.take i)).overlay.hasUndo = true) :
    ∃ k', (e.play steps).overlay.history.Narrower k' ∧
      (e.withHistory k).play steps = (e.play steps).withHistory k' ∧
      (e.withHistory k).answers steps = e.answers steps := by
  induction steps generalizing e k with
  | nil => exact ⟨k, hk, rfl, rfl⟩
  | cons step steps ih =>
    obtain ⟨k₁, hk₁, hstep⟩ :=
      exists_perform_withHistory hk fun hundo => hfound 0 (congrArg some hundo)
    obtain ⟨k₂, hk₂, hplay, hanswers⟩ := ih hk₁ fun i hi => hfound (i + 1) hi
    refine ⟨k₂, hk₂, ?_, ?_⟩
    · rw [play_cons, play_cons, hstep]
      exact hplay
    · rw [answers, answers, hstep, hanswers]

/-! ### How far undos go -/

theorem history_change {pos : Nat} {values : List Nat} (hne : values ≠ [])
    (h : e.change pos values = .ok e') :
    ∃ u, e'.overlay.history = e.overlay.history.push u := by
  obtain ⟨o, ho, rfl⟩ := change_eq_ok_iff.mp h
  obtain ⟨previous, -, rfl⟩ := Overlay.recorded_eq_ok ho hne
  exact ⟨⟨pos, previous⟩, Overlay.merge_history _ _ _⟩

theorem depth_changeAll {edits : List Run} (hne : ∀ r ∈ edits, r.values ≠ [])
    (hdepth : e.overlay.history.depth ≤ e.overlay.history.limit)
    (h : e.changeAll edits = .ok e') :
    e'.overlay.history.depth =
      min (e.overlay.history.depth + edits.length) e.overlay.history.limit := by
  induction edits generalizing e with
  | nil =>
    cases h
    rw [List.length_nil]
    omega
  | cons r edits ih =>
    rw [List.forall_mem_cons] at hne
    obtain ⟨next, hchange, hothers⟩ := changeAll_cons_eq_ok_iff.mp h
    obtain ⟨u, hpush⟩ := history_change hne.1 hchange
    have hlimit : next.overlay.history.limit = e.overlay.history.limit := by rw [hpush]; rfl
    have hnext : next.overlay.history.depth =
        min e.overlay.history.limit (e.overlay.history.depth + 1) := by
      rw [hpush, History.depth_push]
    rw [ih hne.2 (by omega) hothers, hnext, hlimit, List.length_cons]
    omega

omit [Store σ] in
theorem depth_iterate_undo (e : Editor σ) (n : Nat) :
    ((fun e => e.undo.2)^[n] e).overlay.history.depth = e.overlay.history.depth - n := by
  induction n with
  | zero => rfl
  | succ n ih =>
    rw [Function.iterate_succ_apply', ← Nat.sub_sub, ← ih]
    exact Overlay.depth_undo _

omit [Store σ] in
theorem iterate_undo_of_depth_le {n : Nat} (h : e.overlay.history.depth ≤ n) :
    (fun e => e.undo.2)^[n] e = (fun e => e.undo.2)^[e.overlay.history.depth] e := by
  have hempty : ((fun e => e.undo.2)^[e.overlay.history.depth] e).overlay.history.entries = [] := by
    rw [← List.length_eq_zero_iff, ← History.depth, depth_iterate_undo, Nat.sub_self]
  rw [← Nat.sub_add_cancel h, Function.iterate_add_apply]
  exact Function.iterate_fixed (undo_of_entries_eq_nil hempty) _

/-! ### What is shown after undos -/

/-- The editor has the store and the size of `start`, and its snapshots are `m`. Reads of the store
that succeed give `contents`. -/
structure Recalls (contents : List Nat) (start e : Editor σ) (m : Snapshots) : Prop where
  store_eq : e.store = start.store
  width_eq : e.overlay.width = start.overlay.width
  length_eq : e.overlay.length = start.overlay.length
  canonical : Canonical e.overlay.runs
  array_eq : m.array = e.overlay.runs.overlaid contents
  saved_eq : m.saved = unwind m.array e.overlay.history.entries
  limit_eq : m.limit = e.overlay.history.limit
  undo_within : ∀ u ∈ e.overlay.history.entries,
    u.position + u.previous.length ≤ contents.length

namespace Recalls

variable {contents : List Nat} {start : Editor σ} {m : Snapshots} {edits : List Run}

omit [Store σ] in
theorem fresh (contents : List Nat) (s : σ) (width : Width) (length limit : Nat) :
    Recalls contents ⟨s, Overlay.withLimit width length limit⟩
      ⟨s, Overlay.withLimit width length limit⟩ ⟨contents, [], limit⟩ :=
  ⟨rfl, rfl, rfl, canonical_nil, (overlaid_nil contents).symm, rfl, rfl,
    fun _ hu => (List.not_mem_nil hu).elim⟩

theorem change (h : Recalls contents start e m) (hs : Store.ReadsTruly start.store contents)
    {pos : Nat} {values : List Nat} (hne : values ≠ []) (hchange : e.change pos values = .ok e') :
    Recalls contents start e' (m.change pos values) := by
  obtain ⟨o, ho, rfl⟩ := change_eq_ok_iff.mp hchange
  obtain ⟨previous, hprevious, rfl⟩ := Overlay.recorded_eq_ok ho hne
  rw [h.store_eq] at hprevious
  obtain ⟨hrange, rfl⟩ := Overlay.slice_of_values h.canonical hs hprevious
  have hrange' : pos + values.length ≤ m.array.length := by
    rw [h.array_eq, length_overlaid]
    exact hrange
  rw [← h.array_eq]
  refine ⟨h.store_eq, ?_, ?_, ?_, ?_, ?_, ?_, ?_⟩
  · rw [Overlay.merge_width, h.width_eq]
  · rw [Overlay.merge_length, h.length_eq]
  · refine Overlay.canonical_merge ?_ pos values
    exact h.canonical
  · rw [Overlay.overlaid_merge _ hrange, Snapshots.change, h.array_eq]
  · rw [Overlay.merge_history, Snapshots.saved_change h.saved_eq hrange', h.limit_eq]
    rfl
  · rw [Overlay.merge_history]
    exact h.limit_eq
  · rw [Overlay.merge_history]
    intro u hu
    rcases History.mem_push hu with rfl | hu
    · rw [List.length_drop, List.length_take]
      dsimp only
      omega
    · exact h.undo_within u hu

omit [Store σ] in
theorem undo (h : Recalls contents start e m) : Recalls contents start e.undo.2 m.undo := by
  have hsaved := h.saved_eq
  cases hentries : e.overlay.history.entries with
  | nil =>
    rw [hentries, unwind] at hsaved
    rw [undo_of_entries_eq_nil hentries, Snapshots.undo_of_saved_eq_nil hsaved]
    exact h
  | cons u rest =>
    rw [hentries, unwind] at hsaved
    have hwithin := h.undo_within
    rw [hentries, List.forall_mem_cons] at hwithin
    have hoverlay : e.undo.2.overlay = _ :=
      congrArg Prod.snd (Overlay.undo_of_entries_eq_cons hentries)
    rw [Snapshots.undo_of_saved_eq_cons hsaved]
    refine ⟨h.store_eq, ?_, ?_, ?_, ?_, ?_, ?_, ?_⟩
    · exact e.overlay.frame_undo.1.trans h.width_eq
    · exact e.overlay.frame_undo.2.trans h.length_eq
    · rw [hoverlay]
      refine Overlay.canonical_merge ?_ u.position u.previous
      exact h.canonical
    · rw [hoverlay, Overlay.overlaid_merge _ hwithin.1, h.array_eq]
    · rw [hoverlay, Overlay.merge_history]
    · rw [hoverlay, Overlay.merge_history]
      exact h.limit_eq
    · rw [hoverlay, Overlay.merge_history]
      exact hwithin.2

theorem changeAll (h : Recalls contents start e m) (hs : Store.ReadsTruly start.store contents)
    (hne : ∀ r ∈ edits, r.values ≠ []) (hall : e.changeAll edits = .ok e') :
    Recalls contents start e' (m.changeAll edits) := by
  induction edits generalizing e m with
  | nil =>
    cases hall
    exact h
  | cons r edits ih =>
    rw [List.forall_mem_cons] at hne
    obtain ⟨next, hchange, hothers⟩ := changeAll_cons_eq_ok_iff.mp hall
    exact ih (h.change hs hne.1 hchange) hne.2 hothers

omit [Store σ] in
theorem iterate_undo (h : Recalls contents start e m) (n : Nat) :
    Recalls contents start ((fun e => e.undo.2)^[n] e) (Snapshots.undo^[n] m) := by
  induction n with
  | zero => exact h
  | succ n ih =>
    rw [Function.iterate_succ_apply', Function.iterate_succ_apply']
    exact ih.undo

end Recalls

theorem exists_changeAll_take {edits : List Run} (h : e.changeAll edits = .ok e') (n : Nat) :
    ∃ before, e.changeAll (edits.take n) = .ok before := by
  rw [← List.take_append_drop n edits, changeAll, List.foldlM_append, bind_eq_ok] at h
  obtain ⟨before, hbefore, -⟩ := h
  exact ⟨before, hbefore⟩

/-- **Undos after edits in a row.** As many take effect as there are edits and the limit allows, and
then no more. Where the reads of the store are true, what is shown is what the edits showed that
are left. -/
theorem iterate_undo_changeAll {s : σ} {width : Width} {length limit : Nat} {edits : List Run}
    (hne : ∀ r ∈ edits, r.values ≠ [])
    (h : changeAll ⟨s, Overlay.withLimit width length limit⟩ edits = .ok e') :
    (∀ n, ((fun e => e.undo.2)^[n] e').overlay.hasUndo = true ↔ n < min edits.length limit) ∧
      (∀ n, min edits.length limit ≤ n →
        (fun e => e.undo.2)^[n] e' = (fun e => e.undo.2)^[min edits.length limit] e') ∧
      ∀ contents, Store.ReadsTruly s contents → ∀ n, ∃ before : Editor σ,
        changeAll ⟨s, Overlay.withLimit width length limit⟩
          (edits.take (edits.length - min n (min edits.length limit))) = .ok before ∧
        ((fun e => e.undo.2)^[n] e').overlay.runs.overlaid contents =
          before.overlay.runs.overlaid contents ∧
        ∀ offset count, ((fun e => e.undo.2)^[n] e').values offset count =
          before.values offset count := by
  have hdepth : e'.overlay.history.depth = min edits.length limit := by
    rw [depth_changeAll hne (Nat.zero_le _) h]
    exact congrArg (min · limit) (Nat.zero_add _)
  refine ⟨fun n => ?_, fun n hn => ?_, fun contents hs n => ?_⟩
  · rw [Overlay.hasUndo_iff, depth_iterate_undo, hdepth]
    omega
  · rw [← hdepth] at hn ⊢
    exact iterate_undo_of_depth_le hn
  · obtain ⟨before, hbefore⟩ :=
      exists_changeAll_take h (edits.length - min n (min edits.length limit))
    have hfresh := Recalls.fresh contents s width length limit
    have hundone := (hfresh.changeAll hs hne h).iterate_undo n
    have hleft := hfresh.changeAll hs (fun r hr => hne r (List.mem_of_mem_take hr)) hbefore
    -- both show the first edits over the elements of the store
    have hshown : ((fun e => e.undo.2)^[n] e').overlay.runs.overlaid contents =
        before.overlay.runs.overlaid contents := by
      have harray := Snapshots.array_undo_changeAll contents limit
        (edits.take (edits.length - min n (min edits.length limit))) 0
      rw [Nat.zero_min, Nat.sub_zero, List.take_length] at harray
      rw [← hundone.array_eq, ← hleft.array_eq, Snapshots.array_undo_changeAll,
        Nat.min_comm limit]
      exact harray.symm
    refine ⟨before, hbefore, hshown, fun offset count => ?_⟩
    have hstore : ((fun e => e.undo.2)^[n] e').store = s := hundone.store_eq
    have hstore' : before.store = s := hleft.store_eq
    unfold values
    rw [hstore, hstore']
    exact Overlay.values_congr hundone.canonical hleft.canonical hs
      (hundone.width_eq.trans hleft.width_eq.symm) (hundone.length_eq.trans hleft.length_eq.symm)
      hshown offset count

/-- **The limit bounds how far one can undo, and nothing else.** Of two editors that differ in their
limits only, the same script is made, in which the store may change or fail in any way. If every
undo in it finds an entry in the editor with the smaller limit, then both answer the same all the
time, and after every step they have the same runs and the same store, and the one history holds
the newest entries of the other.

After edits in a row from no changes, `n` undos take back as many edits as the limit allows: no more
take effect, and what is shown is what was shown after the edits that are left, if the store's reads
are true. -/
theorem limit_only_bounds_undo (e : Editor σ) {limit : Nat}
    (hlimit : e.overlay.history.limit ≤ limit) {steps : List (Step σ)}
    (hfound : ∀ i, steps[i]? = some (.call .undo) →
      (e.play (steps.take i)).overlay.hasUndo = true) :
    let wide := e.withStackLimit limit
    (wide.answers steps = e.answers steps ∧
      ∀ i, (wide.play (steps.take i)).overlay.runs = (e.play (steps.take i)).overlay.runs ∧
        (wide.play (steps.take i)).store = (e.play (steps.take i)).store ∧
        (e.play (steps.take i)).overlay.history.oldestFirst <:+
          (wide.play (steps.take i)).overlay.history.oldestFirst) ∧
    ∀ (s : σ) (width : Width) (length limit : Nat) (edits : List Run) (e' : Editor σ),
      (∀ r ∈ edits, r.values ≠ []) →
      changeAll ⟨s, Overlay.withLimit width length limit⟩ edits = .ok e' →
      let undone := fun n => (fun e : Editor σ => e.undo.2)^[n] e'
      (∀ n, (undone n).overlay.hasUndo = true ↔ n < min edits.length limit) ∧
        (∀ n, min edits.length limit ≤ n → undone n = undone (min edits.length limit)) ∧
        ∀ contents, Store.ReadsTruly s contents → ∀ n, ∃ before : Editor σ,
          changeAll ⟨s, Overlay.withLimit width length limit⟩
            (edits.take (edits.length - min n (min edits.length limit))) = .ok before ∧
          (undone n).overlay.runs.overlaid contents = before.overlay.runs.overlaid contents ∧
          ∀ offset count, (undone n).values offset count = before.values offset count := by
  have hnarrower : e.overlay.history.Narrower { e.overlay.history with limit := limit } :=
    ⟨List.prefix_refl _, hlimit⟩
  intro wide
  refine ⟨⟨?_, fun i => ?_⟩, fun s width length limit edits e' hne h =>
    iterate_undo_changeAll hne h⟩
  · obtain ⟨-, -, -, hanswers⟩ := exists_play_withHistory hnarrower hfound
    exact hanswers
  · have hfound' : ∀ j, (steps.take i)[j]? = some (.call .undo) →
        (e.play ((steps.take i).take j)).overlay.hasUndo = true := by
      intro j hj
      have hji : j < i := by
        by_contra hle
        rw [List.getElem?_take, if_neg hle] at hj
        cases hj
      rw [List.getElem?_take_of_lt hji] at hj
      rw [List.take_take, Nat.min_eq_left hji.le]
      exact hfound j hj
    obtain ⟨k, hk, hplay, -⟩ := exists_play_withHistory hnarrower hfound'
    have hwide : wide.play (steps.take i) = _ := hplay
    rw [hwide]
    exact ⟨rfl, rfl, List.reverse_suffix.mpr hk.entries_prefix⟩

/-- A limit of one and of three, and a commit whose second write fails. The undo takes back the
change that is still in the overlay; only with the larger limit the one in the store could be taken
back as well. Of three edits a limit of two leaves the first one. -/
theorem limit_only_bounds_undo_failed_commit :
    let s : Unsteady MemoryStore := ⟨MemoryStore.zeroed .w8 6,
      fun n => if n = 1 then some (.writeFailed 4 "device") else none, 0⟩
    let e := withLimit s 1
    let steps : List (Step (Unsteady MemoryStore)) := [.call (.change 0 [1] true),
      .call (.change 4 [2, 3] true), .call .commit, .call .undo, .call (.change 0 [300] true),
      .exchange fun u => { u with plan := fun _ => none }, .call .popFirst,
      .call (.requeue 2 [7]), .call .commit]
    let edits : List Run := [⟨0, [1]⟩, ⟨1, [2, 3]⟩, ⟨0, [4]⟩]
    e.overlay.history.limit ≤ 3 ∧
      (∀ i, steps[i]? = some (.call .undo) →
        (e.play (steps.take i)).overlay.hasUndo = true) ∧
      (e.withStackLimit 3).answers steps = e.answers steps ∧
      ((e.withStackLimit 3).play steps).store = (e.play steps).store ∧
      (e.play steps).store.store.elements = [1, 0, 7, 0, 0, 0] ∧
      (e.play steps).overlay.hasUndo = false ∧
      ((e.withStackLimit 3).play steps).overlay.history.entries = [⟨0, [0]⟩] ∧
      ∃ e' : Editor (Unsteady MemoryStore),
        changeAll ⟨s, Overlay.withLimit .w8 6 2⟩ edits = .ok e' ∧
        ((fun e => e.undo.2)^[1] e').overlay.hasUndo = true ∧
        ∃ before : Editor (Unsteady MemoryStore),
          changeAll ⟨s, Overlay.withLimit .w8 6 2⟩ [⟨0, [1]⟩] = .ok before ∧
          ∀ offset count, ((fun e => e.undo.2)^[2] e').values offset count =
            before.values offset count := by
  intro s e steps edits
  have hlimit : e.overlay.history.limit ≤ 3 := by decide
  have hfound : ∀ i, steps[i]? = some (.call .undo) →
      (e.play (steps.take i)).overlay.hasUndo = true := by
    rintro (_ | _ | _ | _ | _ | _ | _ | _ | _ | i) hi
    all_goals cases hi
    decide
  obtain ⟨⟨hanswers, hsame⟩, hedits⟩ := limit_only_bounds_undo e hlimit hfound
  have hstore : ((e.withStackLimit 3).play steps).store = (e.play steps).store := (hsame 9).2.1
  obtain ⟨hundo, -, hshown⟩ := hedits s .w8 6 2 edits _ (by decide) rfl
  obtain ⟨before, hbefore, -, hvalues⟩ :=
    hshown (List.replicate 6 0) (MemoryStore.zeroed .w8 6).exact.readsTruly 2
  exact ⟨hlimit, hfound, hanswers, hstore, by decide, by decide, by decide, _, rfl,
    (hundo 1).mpr (by decide), before, hbefore, hvalues⟩

end Editor
end EditOverlay
