import EditOverlay.Dump
import Mathlib.Tactic.SplitIfs

/-! # Text: slices

`slices n xs` cuts a list into slices of `n` elements, of which the last may be shorter. Put
together they are the list (`flatten_slices`), and pieces of `n` elements that were put together are
its slices (`slices_flatMap`). The values of a dump are cut into lines in this way
(`Dump.rows_eq_slices`). -/

namespace EditOverlay

variable {α β : Type} {n : Nat} {xs ys : List α}

/-- The list cut into slices of `n` elements. -/
def slices (n : Nat) (xs : List α) : List (List α) :=
  (List.range ((xs.length + n - 1) / n)).map fun i => (xs.drop (n * i)).take n

theorem Dump.rows_eq_slices (values : List Nat) : rows values = slices perLine values := rfl

@[simp] theorem length_slices (n : Nat) (xs : List α) :
    (slices n xs).length = (xs.length + n - 1) / n := by
  rw [slices, List.length_map, List.length_range]

theorem getElem?_slices (n : Nat) (xs : List α) (i : Nat) : (slices n xs)[i]? =
    if i < (slices n xs).length then some ((xs.drop (n * i)).take n) else none := by
  rw [length_slices, slices, List.getElem?_map]
  split_ifs with hi
  · rw [List.getElem?_range hi, Option.map_some]
  · rw [List.getElem?_eq_none (by rw [List.length_range]; omega), Option.map_none]

theorem length_of_getElem?_slices (hn : 0 < n) {i : Nat} (h : (slices n xs)[i]? = some ys)
    (hi : i + 1 < (slices n xs).length) : ys.length = n := by
  rw [getElem?_slices, if_pos (by omega), Option.some.injEq] at h
  rw [length_slices, Nat.lt_div_iff_mul_lt hn] at hi
  rw [← h, List.length_take, List.length_drop]
  have hmul : (i + 1) * n = n * i + n := by rw [Nat.succ_mul, Nat.mul_comm]
  omega

/-- **The slices make up the list.** The induction is on the number of slices. -/
theorem flatten_slices (hn : 0 < n) (xs : List α) : (slices n xs).flatten = xs := by
  have hfirst : ∀ k, ((List.range k).map fun i => (xs.drop (n * i)).take n).flatten =
      xs.take (n * k) := by
    intro k
    induction k with
    | zero => rw [Nat.mul_zero, List.take_zero, List.range_zero, List.map_nil, List.flatten_nil]
    | succ k ih =>
      rw [List.range_succ, List.map_append, List.flatten_append, ih, Nat.mul_succ, List.take_add]
      simp
  have hall : xs.length ≤ n * ((xs.length + n - 1) / n) := by
    have hrest := Nat.mod_lt (xs.length + n - 1) hn
    have hdiv := Nat.div_add_mod (xs.length + n - 1) n
    omega
  rw [slices, hfirst, List.take_of_length_le hall]

theorem slices_append (hn : 0 < n) (hxs : xs.length = n) (ys : List α) :
    slices n (xs ++ ys) = xs :: slices n ys := by
  have hcount : ((xs ++ ys).length + n - 1) / n = (ys.length + n - 1) / n + 1 := by
    rw [List.length_append, hxs, ← Nat.add_div_right _ hn]
    congr 1
    omega
  have hfirst : ((xs ++ ys).drop (n * 0)).take n = xs := by
    rw [Nat.mul_zero, List.drop_zero, ← hxs, List.take_left]
  have hothers : ∀ i, (xs ++ ys).drop (n * (i + 1)) = ys.drop (n * i) := fun i => by
    rw [Nat.mul_succ, Nat.add_comm, ← List.drop_drop, ← hxs, List.drop_left]
  rw [slices, hcount, List.range_succ_eq_map, List.map_cons, List.map_map, hfirst, slices]
  simp only [Function.comp_def, hothers]

/-- **Pieces that are put together are taken apart again.** -/
theorem slices_flatMap (hn : 0 < n) {items : List β} {f : β → List α}
    (h : ∀ x ∈ items, (f x).length = n) : slices n (items.flatMap f) = items.map f := by
  induction items with
  | nil =>
    have hnone : (0 + n - 1) / n = 0 := Nat.div_eq_of_lt (by omega)
    rw [List.flatMap_nil, slices, List.length_nil, hnone, List.range_zero, List.map_nil,
      List.map_nil]
  | cons x items ih =>
    rw [List.forall_mem_cons] at h
    rw [List.flatMap_cons, slices_append hn h.1, ih h.2, List.map_cons]

end EditOverlay
