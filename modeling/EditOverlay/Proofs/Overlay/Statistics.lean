import EditOverlay.Proofs.Dump.Runs
import EditOverlay.Proofs.Overlay.Invariant
import EditOverlay.Proofs.Overlay.Tally
import EditOverlay.Proofs.RunList.Maximal

/-! # Overlays: statistics

The numbers that an overlay gives about itself are read off its runs and its undo stack. They are
true of the state that point lookups show and of the operations that led to it (`statistics_true`):
the runs are the maximal blocks of changed positions, their lengths add up to the number of these
positions, and the undo stack, with what it has dropped, accounts for every recorded change. -/

namespace EditOverlay.Overlay

open RunList

variable {o : Overlay} {Q : Nat → Prop}

/-- The changed positions of an overlay. -/
def changedPositions (o : Overlay) : Finset ℕ :=
  (Finset.range o.length).filter fun p => o.isChanged p = true

theorem Sound.positions_eq (h : Sound Q o) : o.runs.positions = o.changedPositions :=
  positions_eq_filter fun r hr => (h.runs_within r hr).1

theorem Sound.changedCount_eq (h : Sound Q o) : o.changedCount = o.changedPositions.card := by
  rw [changedCount, h.canonical.count_eq_card, h.positions_eq]

theorem card_changedPositions_le (o : Overlay) : o.changedPositions.card ≤ o.length :=
  (Finset.card_filter_le _ _).trans (Finset.card_range _).le

theorem Sound.hasChanges_iff (h : Sound Q o) : o.hasChanges = true ↔ 0 < o.changedCount := by
  rw [hasChanges, Bool.not_eq_true', List.isEmpty_eq_false_iff, ne_eq,
    ← positions_eq_empty_iff h.canonical.nonempty, changedCount, h.canonical.count_eq_card,
    Finset.card_pos, Finset.nonempty_iff_ne_empty]

/-- The extents of a summary ascend, and they are the maximal blocks of changed positions. -/
theorem Sound.extents (h : Sound Q o) :
    o.summary.runs.Pairwise (fun x y => x.start + x.length < y.start) ∧
      ∀ start n, ⟨start, n⟩ ∈ o.summary.runs ↔ IsBlock o.isChanged start n := by
  constructor
  · exact List.pairwise_map.mpr h.canonical.apart
  · intro start n
    refine Iff.trans ?_ h.canonical.isBlock_iff.symm
    simp only [summary, List.mem_map, Extent.mk.injEq]

/-- **The statistics are true.** After any operations, with stores whose reads give no more elements
than asked for: as many elements are counted as changed as there are changed positions, so no more
than there are elements, and the sum does not overflow; the runs are as many as the maximal blocks
of changed positions; the summary lists exactly these blocks, in ascending order; from a dump of
runs the same blocks are read, in the same order, and then the undo entries with the newest first;
there are changes exactly if some element is counted; the undo stack keeps its limit; and of the
changes recorded since the last clear each is on the stack, or dropped, or taken back. -/
theorem statistics_true (width : Width) (length limit : Nat) {ops : List Operation}
    (hops : ∀ op ∈ ops, op.ReadsWithin fun _ => True) :
    let o := (withLimit width length limit).after ops
    let changed := (Finset.range length).filter fun p => o.isChanged p = true
    let tally := (withLimit width length limit).tally ⟨0, 0⟩ ops
    o.summary.changedCount = changed.card ∧ o.summary.changedCount ≤ length ∧
      (length ≤ Word.max → o.runs.countWords? = some o.summary.changedCount) ∧
      o.summary.runCount = blockCount changed ∧
      o.summary.runs.Pairwise (fun x y => x.start + x.length < y.start) ∧
      (∀ start n, ⟨start, n⟩ ∈ o.summary.runs ↔ IsBlock o.isChanged start n) ∧
      (∀ {σ : Type} (s : σ), Dump.listing? (Dump.runs ⟨s, o⟩).toList = some
        ⟨o.summary.runs.map fun x => ⟨x.start, x.start + x.length, x.length⟩, o.history.depth,
          limit, o.history.dropped,
          o.history.entries.map fun u => ⟨u.position, u.previous.length⟩⟩) ∧
      (o.hasChanges = true ↔ 0 < o.summary.changedCount) ∧
      o.summary.undoDepth ≤ limit ∧
      tally.recorded = o.summary.undoDepth + o.summary.undoDropped + tally.undone := by
  intro o changed tally
  obtain ⟨hs, -, hlength, hlimit⟩ :=
    (sound_withLimit (fun _ => True) width length limit).after (fun _ _ => trivial) hops
  have hchanged : o.changedPositions = changed := by
    unfold changedPositions
    rw [show o.length = length from hlength]
  have hcount : o.summary.changedCount = changed.card := hs.changedCount_eq.trans (hchanged ▸ rfl)
  have hle : o.summary.changedCount ≤ length := by
    rw [hcount, ← hchanged]
    exact (card_changedPositions_le o).trans_eq hlength
  obtain ⟨hascending, hblocks⟩ := hs.extents
  refine ⟨hcount, hle, fun hword => countWords?_eq (hle.trans hword), ?_, hascending, hblocks,
    fun s => ?_, hs.hasChanges_iff, hs.depth_le.trans_eq hlimit,
    (balanced_withLimit width length limit).after ops⟩
  · rw [← hchanged, ← hs.positions_eq]
    exact hs.canonical.length_eq_blockCount
  · rw [Dump.listing?_runs, show o.history.limit = limit from hlimit, summary, List.map_map]
    rfl

/-- The same after a clear and changes of a store that cuts reads short: of four recorded changes
one is on the stack, two have been dropped and one has been taken back, and two blocks are left of
five changes. -/
theorem statistics_true_dropped :
    let s : Faulty MemoryStore := ⟨MemoryStore.zeroed .w8 20, ⟨[], [], some 2⟩⟩
    let ops : List Operation := [.change s 0 [9] true, .clear, .change s 2 [1] true,
      .change s 8 [2, 2, 2] true, .undo, .change s 18 [255] true, .change s 11 [3] false,
      .change s 3 [4] true]
    let o := (withLimit .w8 20 1).after ops
    let changed := (Finset.range 20).filter fun p => o.isChanged p = true
    let tally := (withLimit .w8 20 1).tally ⟨0, 0⟩ ops
    (∀ op ∈ ops, op.ReadsWithin fun _ => True) ∧
      o.runs = [⟨2, [1, 4]⟩, ⟨8, [0, 0, 2, 3]⟩, ⟨18, [255]⟩] ∧
      tally = ⟨4, 1⟩ ∧ o.history = ⟨[⟨3, [0]⟩], 1, 2⟩ ∧
      7 = changed.card ∧ 3 = blockCount changed ∧
      (∀ start n, ⟨start, n⟩ ∈ o.summary.runs ↔ IsBlock o.isChanged start n) ∧
      Dump.listing? (Dump.runs ⟨(), o⟩).toList =
        some ⟨[⟨2, 4, 2⟩, ⟨8, 12, 4⟩, ⟨18, 19, 1⟩], 1, 1, 2, [⟨3, 1⟩]⟩ := by
  intro s ops o changed tally
  have hs : Store.ReadsWithin (fun _ => True) s :=
    Faulty.readsWithin ((MemoryStore.zeroed .w8 20).exact.readsWithin fun _ _ => trivial)
  have hops : ∀ op ∈ ops, op.ReadsWithin fun _ => True := by
    simp only [ops, List.forall_mem_cons]
    exact ⟨hs, trivial, hs, hs, trivial, hs, hs, hs, by simp⟩
  have hseven : ((withLimit .w8 20 1).after ops).summary.changedCount = 7 := by decide
  have hthree : ((withLimit .w8 20 1).after ops).summary.runCount = 3 := by decide
  have hextents : ((withLimit .w8 20 1).after ops).summary.runs = [⟨2, 2⟩, ⟨8, 4⟩, ⟨18, 1⟩] := by
    decide
  have hhistory : ((withLimit .w8 20 1).after ops).history = ⟨[⟨3, [0]⟩], 1, 2⟩ := by decide
  obtain ⟨hcount, -, -, hruns, -, hblocks, hlisting, -⟩ := statistics_true .w8 20 1 hops
  rw [hseven] at hcount
  rw [hthree] at hruns
  have hlisted := hlisting ()
  rw [hextents, hhistory] at hlisted
  exact ⟨hops, by decide, by decide, hhistory, hcount, hruns, hblocks, hlisted⟩

end EditOverlay.Overlay
