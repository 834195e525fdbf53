import EditOverlay.Proofs.Except
import EditOverlay.Proofs.RunList.Shape
import EditOverlay.Store.Faulty
import EditOverlay.Store.Memory

/-! # Stores: what reads give

`Store.ReadsWithin Q s`: a read of `s` may fail, but what it gives is not longer than asked for and
holds values with `Q` only. Exact stores read so, and faults do not spoil it. -/

namespace EditOverlay

theorem map_checkRange_eq_ok_iff {α : Type} {pos count length : Nat} {f : Nat → α} {a : α} :
    (checkRange pos count length).map f = .ok a ↔ pos + count ≤ length ∧ f (pos + count) = a := by
  rw [map_eq_ok]
  constructor
  · rintro ⟨stop, hstop, ha⟩
    obtain ⟨hrange, rfl⟩ := checkRange_eq_ok_iff.mp hstop
    exact ⟨hrange, ha⟩
  · rintro ⟨hrange, ha⟩
    exact ⟨_, checkRange_eq_ok_iff.mpr ⟨hrange, rfl⟩, ha⟩

namespace Store

variable {σ : Type} [Store σ] {Q : Nat → Prop} {s : σ}

/-- What the reads of a store give: not more elements than asked for, and only allowed ones. -/
def ReadsWithin (Q : Nat → Prop) (s : σ) : Prop :=
  ∀ offset count xs, read s offset count = .ok xs → xs.length ≤ count ∧ ∀ v ∈ xs, Q v

/-- Reads of a store may fail, but those that succeed give as many elements as asked for. -/
def ReadsFully (s : σ) : Prop :=
  ∀ offset count xs, read s offset count = .ok xs → xs.length = count

/-- Reads of a store may fail, but those that succeed give the elements `contents`. -/
def ReadsTruly (s : σ) (contents : List Nat) : Prop :=
  ∀ offset count xs, read s offset count = .ok xs →
    offset + count ≤ contents.length ∧ (contents.take (offset + count)).drop offset = xs

theorem ReadsWithin.mono {Q' : Nat → Prop} (hQ : ∀ v, Q v → Q' v) (h : ReadsWithin Q s) :
    ReadsWithin Q' s := by
  intro offset count xs hread
  obtain ⟨hcount, hxs⟩ := h offset count xs hread
  exact ⟨hcount, fun v hv => hQ v (hxs v hv)⟩

theorem Exact.read_eq_ok_iff {contents xs : List Nat} {offset count : Nat} (h : Exact s contents) :
    read s offset count = .ok xs ↔
      offset + count ≤ contents.length ∧ (contents.take (offset + count)).drop offset = xs := by
  rw [h.read_eq, map_checkRange_eq_ok_iff]

theorem Exact.read_one {contents : List Nat} (h : Exact s contents) {p : Nat}
    (hp : p < contents.length) : read s p 1 = .ok [contents[p]] := by
  refine h.read_eq_ok_iff.mpr ⟨hp, ?_⟩
  rw [List.drop_take, Nat.add_sub_cancel_left, List.drop_eq_getElem_cons hp]
  rfl

theorem Exact.readsTruly {contents : List Nat} (h : Exact s contents) : ReadsTruly s contents :=
  fun _ _ _ hread => h.read_eq_ok_iff.mp hread

theorem Exact.readsFully {contents : List Nat} (h : Exact s contents) : ReadsFully s := by
  intro offset count xs hread
  obtain ⟨hrange, rfl⟩ := h.read_eq_ok_iff.mp hread
  rw [List.length_drop, List.length_take]
  omega

theorem Exact.readsWithin {contents : List Nat} (h : Exact s contents) (hQ : ∀ v ∈ contents, Q v) :
    ReadsWithin Q s := by
  intro offset count xs hread
  obtain ⟨-, rfl⟩ := h.read_eq_ok_iff.mp hread
  refine ⟨by rw [List.length_drop, List.length_take]; omega, fun v hv => ?_⟩
  exact hQ v (List.mem_of_mem_take (List.mem_of_mem_drop hv))

end Store

/-- Faults take reads away or cut them short, no more. -/
theorem Faulty.readsWithin {σ : Type} [Store σ] {Q : Nat → Prop} {f : Faulty σ}
    (h : Store.ReadsWithin Q f.store) : Store.ReadsWithin Q f := by
  intro offset count xs hread
  change f.read offset count = .ok xs at hread
  unfold Faulty.read at hread
  split_ifs at hread
  obtain ⟨ys, hys, rfl⟩ := map_eq_ok.mp hread
  obtain ⟨hcount, hallowed⟩ := h offset count ys hys
  cases f.plan.readCap with
  | none => exact ⟨hcount, hallowed⟩
  | some cap =>
    refine ⟨?_, fun v hv => hallowed v (List.mem_of_mem_take hv)⟩
    rw [List.length_take]
    omega

end EditOverlay
