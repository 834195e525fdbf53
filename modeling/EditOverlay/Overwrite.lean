/-! # Laying one list over another

`overwrite xs i ys` lays `ys` over `xs` from index `i` on. Stores write, and an overlay is applied,
by this one function. Main statement: inside the list, `overwrite` keeps the length and changes the
indices `[i, i + ys.length)` only (`length_overwrite`, `getElem?_overwrite`). -/

namespace EditOverlay

variable {α : Type}

/-- The list `xs` with `ys` laid over it from index `i` on. -/
def overwrite (xs : List α) (i : Nat) (ys : List α) : List α :=
  xs.take i ++ ys ++ xs.drop (i + ys.length)

theorem length_overwrite {xs ys : List α} {i : Nat} (h : i + ys.length ≤ xs.length) :
    (overwrite xs i ys).length = xs.length := by
  simp [overwrite]
  omega

theorem overwrite_nil (xs : List α) (i : Nat) : overwrite xs i [] = xs := by
  simp [overwrite]

theorem getElem?_overwrite {xs ys : List α} {i : Nat} (h : i + ys.length ≤ xs.length) (k : Nat) :
    (overwrite xs i ys)[k]? = if i ≤ k ∧ k < i + ys.length then ys[k - i]? else xs[k]? := by
  have hi : (xs.take i).length = i := by simp; omega
  unfold overwrite
  rw [List.append_assoc, List.getElem?_append, hi]
  split
  · rw [if_neg (by omega), List.getElem?_take_of_lt (by omega)]
  · rw [List.getElem?_append]
    split
    · rw [if_pos (by omega)]
    · rw [if_neg (by omega), List.getElem?_drop]
      congr 1
      omega

end EditOverlay
