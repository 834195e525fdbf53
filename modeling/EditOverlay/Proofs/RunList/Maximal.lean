import EditOverlay.Proofs.RunList.Blocks
import EditOverlay.Proofs.RunList.Scan

/-! # Lists of runs: the maximal blocks

`IsBlock` says that some positions in a row are changed and cannot be extended on either side. The
runs of a canonical list lie exactly there (`Canonical.isBlock_iff`). Their lengths add up to the
number of changed positions (`Canonical.count_eq_card`), and nothing goes wrong when they are added
in machine words (`countWords?_eq`). -/

namespace EditOverlay

/-- The `length` positions from `start` on are changed, and neither the one before them nor the one
behind them is. -/
structure IsBlock (changed : Nat → Bool) (start length : Nat) : Prop where
  nonempty : 0 < length
  inside : ∀ p, start ≤ p → p < start + length → changed p = true
  before : start = 0 ∨ changed (start - 1) = false
  behind : changed (start + length) = false

namespace RunList

variable {runs : RunList} {r : Run} {p : Nat}

theorem isSome_valueAt?_iff :
    (runs.valueAt? p).isSome = true ↔ ∃ r ∈ runs, r.start ≤ p ∧ p < r.stop := by
  unfold valueAt?
  rw [List.findSome?_isSome_iff]
  refine exists_congr fun r => and_congr_right fun _ => ?_
  rw [← Run.mem_positions, Run.positions, Finset.mem_Ico]

theorem isSome_valueAt?_eq_false_iff :
    (runs.valueAt? p).isSome = false ↔ ∀ r ∈ runs, r.start ≤ p → r.stop ≤ p := by
  rw [← Bool.not_eq_true, isSome_valueAt?_iff]
  push Not
  rfl

/-- **The runs lie at the maximal blocks.** Two runs are apart, so no block reaches over one. -/
theorem Canonical.isBlock_iff (h : Canonical runs) {start n : Nat} :
    IsBlock (fun p => (runs.valueAt? p).isSome) start n ↔
      ∃ r ∈ runs, r.start = start ∧ r.length = n := by
  constructor
  · intro hblock
    obtain ⟨r, hr, hstart, hstop⟩ := isSome_valueAt?_iff.mp
      (hblock.inside start le_rfl (Nat.lt_add_of_pos_right hblock.nonempty))
    have hfirst : r.start = start := by
      rcases hblock.before with hzero | hbefore
      · omega
      · have := isSome_valueAt?_eq_false_iff.mp hbefore r hr
        omega
    have hbehind := isSome_valueAt?_eq_false_iff.mp hblock.behind r hr
    have hlast : ¬ r.stop < start + n := by
      -- the position behind the run would be changed, and so by another run
      intro hlt
      obtain ⟨s, hs, hsstart, hsstop⟩ :=
        isSome_valueAt?_iff.mp (hblock.inside r.stop (by omega) hlt)
      rcases h.eq_or_apart hr hs with rfl | hapart | hapart
      · omega
      · omega
      · omega
    refine ⟨r, hr, hfirst, ?_⟩
    have hlength : r.stop = r.start + r.length := rfl
    omega
  · rintro ⟨r, hr, rfl, rfl⟩
    have hlength : r.start + r.length = r.stop := rfl
    have hnonempty := Run.start_lt_stop (h.nonempty r hr)
    refine ⟨by omega, fun p hstart hstop => isSome_valueAt?_iff.mpr ⟨r, hr, hstart, by omega⟩, ?_,
      isSome_valueAt?_eq_false_iff.mpr fun s hs hsstart => ?_⟩
    · rcases Nat.eq_zero_or_pos r.start with hzero | hpos
      · exact Or.inl hzero
      · refine Or.inr (isSome_valueAt?_eq_false_iff.mpr fun s hs hsstart => ?_)
        rcases h.eq_or_apart hr hs with rfl | hapart | hapart
        · omega
        · omega
        · omega
    · rcases h.eq_or_apart hr hs with rfl | hapart | hapart
      · omega
      · omega
      · omega

/-! ### Their number -/

theorem count_eq_sum (runs : RunList) : runs.count = (runs.map Run.length).sum := by
  induction runs with
  | nil => rfl
  | cons r rest ih =>
    rw [List.map_cons, List.sum_cons, ← ih]
    rfl

theorem positions_eq_filter {n : Nat} (hin : ∀ r ∈ runs, r.stop ≤ n) :
    runs.positions = (Finset.range n).filter fun p => (runs.valueAt? p).isSome = true := by
  ext p
  rw [mem_positions, Finset.mem_filter, Finset.mem_range]
  refine ⟨fun hp => ⟨?_, hp⟩, fun hp => hp.2⟩
  obtain ⟨r, hr, -, hstop⟩ := isSome_valueAt?_iff.mp hp
  have := hin r hr
  omega

theorem Canonical.count_eq_card (h : Canonical runs) : runs.count = runs.positions.card := by
  rw [count_eq_sum, h.sum_length]

/-- The number of positions that the runs cover, added in machine words. -/
def countWords? (runs : RunList) : Option Nat :=
  runs.foldlM (fun n r => Word.add? n r.length) 0

theorem countWords?_eq (h : runs.count ≤ Word.max) : runs.countWords? = some runs.count := by
  have hfrom : ∀ (n : Nat) (runs : RunList), n + runs.count ≤ Word.max →
      runs.foldlM (fun n r => Word.add? n r.length) n = some (n + runs.count) := by
    intro n runs
    induction runs generalizing n with
    | nil => exact fun _ => rfl
    | cons r rest ih =>
      intro hle
      have hcount : count (r :: rest) = r.length + count rest := rfl
      rw [hcount, ← Nat.add_assoc] at hle ⊢
      rw [List.foldlM_cons, Word.add?_of_le (by omega), Option.bind_eq_bind, Option.bind_some,
        ih _ hle]
  have hall := hfrom 0 runs (by rwa [Nat.zero_add])
  rwa [Nat.zero_add] at hall

end RunList
end EditOverlay
