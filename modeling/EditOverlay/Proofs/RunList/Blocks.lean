import EditOverlay.Proofs.RunList.View
import Mathlib.Algebra.GroupWithZero.Nat
import Mathlib.Order.Interval.Finset.Nat

/-! # Lists of runs: positions and blocks

`positions` are the positions that some run of a list covers, and `blockCount` is the number of
maximal blocks that a set of positions makes. The runs of a canonical list are these blocks: they
have as many elements as there are positions (`Canonical.sum_length`), and there are as many of them
as there are blocks (`Canonical.length_eq_blockCount`). -/

namespace EditOverlay

/-- The positions that a run covers. -/
def Run.positions (r : Run) : Finset ℕ := Finset.Ico r.start r.stop

/-- The number of maximal blocks of consecutive numbers in a set. Each has one last number. -/
def blockCount (s : Finset ℕ) : ℕ := (s.filter fun p => p + 1 ∉ s).card

theorem Run.mem_positions {r : Run} {p : ℕ} : p ∈ r.positions ↔ (r.valueAt? p).isSome := by
  rw [Run.positions, Finset.mem_Ico, Option.isSome_iff_ne_none, ne_eq, Run.valueAt?_eq_none_iff]
  omega

namespace RunList

/-- The positions that the runs cover. -/
def positions (runs : RunList) : Finset ℕ := runs.foldr (fun r s => r.positions ∪ s) ∅

theorem positions_cons (r : Run) (runs : RunList) :
    positions (r :: runs) = r.positions ∪ positions runs := rfl

theorem positions_eq_empty_iff {runs : RunList} (h : ∀ r ∈ runs, r.values ≠ []) :
    runs.positions = ∅ ↔ runs = [] := by
  cases runs with
  | nil => exact ⟨fun _ => rfl, fun _ => rfl⟩
  | cons r rest =>
    have hstart : r.start < r.stop := Run.start_lt_stop (h r List.mem_cons_self)
    rw [positions_cons, Finset.union_eq_empty, Run.positions, Finset.Ico_eq_empty_iff]
    refine ⟨fun hempty => absurd hstart hempty.1, fun hnil => ?_⟩
    cases hnil

theorem mem_positions {runs : RunList} {p : ℕ} :
    p ∈ runs.positions ↔ (runs.valueAt? p).isSome := by
  induction runs with
  | nil => simp [positions, valueAt?]
  | cons r rest ih =>
    rw [positions_cons, Finset.mem_union, Run.mem_positions, ih, valueAt?_cons, Option.isSome_or,
      Bool.or_eq_true]

/-! ### Canonical lists -/

theorem Canonical.stop_lt_of_mem_positions {r : Run} {runs : RunList}
    (h : Canonical (r :: runs)) {p : ℕ} (hp : p ∈ runs.positions) : r.stop < p := by
  rw [mem_positions, Option.isSome_iff_exists] at hp
  obtain ⟨v, hv⟩ := hp
  by_contra hle
  rw [h.valueAt?_tail (by omega)] at hv
  cases hv

/-- **The runs have as many elements as positions.** -/
theorem Canonical.sum_length {runs : RunList} (h : Canonical runs) :
    (runs.map Run.length).sum = runs.positions.card := by
  induction runs with
  | nil => rfl
  | cons r rest ih =>
    have hdisjoint : Disjoint r.positions (positions rest) := by
      refine Finset.disjoint_left.mpr fun p hp hrest => ?_
      have hlt := h.stop_lt_of_mem_positions hrest
      rw [Run.positions, Finset.mem_Ico] at hp
      omega
    have hcard : r.positions.card = r.length := by
      rw [Run.positions, Nat.card_Ico, Run.stop]
      omega
    rw [List.map_cons, List.sum_cons, ih h.tail, positions_cons,
      Finset.card_union_of_disjoint hdisjoint, hcard]

theorem blockCount_Ico_union {a b : ℕ} {s : Finset ℕ} (hab : a < b) (hs : ∀ p ∈ s, b < p) :
    blockCount (Finset.Ico a b ∪ s) = blockCount s + 1 := by
  have hlast : (Finset.Ico a b ∪ s).filter (fun p => p + 1 ∉ Finset.Ico a b ∪ s) =
      insert (b - 1) (s.filter fun p => p + 1 ∉ s) := by
    ext p
    simp only [Finset.mem_filter, Finset.mem_union, Finset.mem_Ico, Finset.mem_insert, not_or]
    constructor
    · rintro ⟨hp | hp, hnot, hs'⟩
      · exact Or.inl (by omega)
      · exact Or.inr ⟨hp, hs'⟩
    · rintro (rfl | ⟨hp, hs'⟩)
      · refine ⟨Or.inl (by omega), by omega, fun hmem => ?_⟩
        have := hs _ hmem
        omega
      · have := hs p hp
        exact ⟨Or.inr hp, by omega, hs'⟩
  have hnew : b - 1 ∉ s.filter fun p => p + 1 ∉ s := by
    intro hmem
    have := hs _ (Finset.mem_filter.mp hmem).1
    omega
  rw [blockCount, hlast, Finset.card_insert_of_notMem hnew, blockCount]

/-- **The runs are the blocks of their positions.** -/
theorem Canonical.length_eq_blockCount {runs : RunList} (h : Canonical runs) :
    runs.length = blockCount runs.positions := by
  induction runs with
  | nil => rfl
  | cons r rest ih =>
    have hstart : r.start < r.stop := Run.start_lt_stop (h.nonempty r List.mem_cons_self)
    rw [positions_cons, Run.positions, List.length_cons, ih h.tail,
      blockCount_Ico_union hstart fun p hp => h.stop_lt_of_mem_positions hp]

end RunList
end EditOverlay
