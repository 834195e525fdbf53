import EditOverlay.Codec
import EditOverlay.Overwrite
import Mathlib.Algebra.GroupWithZero.Nat
import Mathlib.Tactic.SplitIfs

/-! # Elements as bytes: which elements there are

`elements w bytes` are the whole elements that a list of bytes holds; what is left at the end makes
no element. Cutting and joining bytes at the ends of elements is cutting and joining elements
(`elements_take`, `elements_drop`, `elements_append`), and so

* `decode_eq`: reading gives the elements, if there are enough bytes;
* `elements_encode`: values that fit are the elements of their bytes;
* `elements_overwrite`: writing the bytes of values over bytes is writing the values over elements.
-/

namespace EditOverlay

theorem Width.fits_iff_lt_pow {w : Width} {value : Nat} :
    w.Fits value ↔ value < 256 ^ w.byteCount := by
  have h : w.maxValue + 1 = 256 ^ w.byteCount := by cases w <;> rfl
  unfold Fits
  omega

namespace Codec

variable {w : Width} {bytes : List UInt8}

/-! ### One element -/

theorem number_lt_pow (bytes : List UInt8) : number bytes < 256 ^ bytes.length := by
  induction bytes with
  | nil => exact Nat.one_pos
  | cons b bs ih =>
    have hb := b.toNat_lt
    rw [number, List.length_cons, Nat.pow_succ]
    omega

theorem number_digits (k value : Nat) : number (digits k value) = value % 256 ^ k := by
  induction k generalizing value with
  | zero => rw [Nat.pow_zero, Nat.mod_one]; rfl
  | succ k ih =>
    rw [digits, number, ih, Nat.pow_succ', Nat.mod_mul, UInt8.toNat_ofNat']

theorem number_encodeElement {value : Nat} (h : w.Fits value) :
    number (encodeElement w value) = value := by
  rw [encodeElement, number_digits, Nat.mod_eq_of_lt (Width.fits_iff_lt_pow.mp h)]

/-! ### The elements of a list of bytes -/

/-- The whole elements of a list of bytes. -/
def elements (w : Width) (bytes : List UInt8) : List Nat :=
  (List.range (bytes.length / w.byteCount)).map fun i =>
    number ((bytes.drop (i * w.byteCount)).take w.byteCount)

@[simp] theorem length_elements (w : Width) (bytes : List UInt8) :
    (elements w bytes).length = bytes.length / w.byteCount := by
  rw [elements, List.length_map, List.length_range]

theorem fits_of_mem_elements {v : Nat} (hv : v ∈ elements w bytes) : w.Fits v := by
  obtain ⟨i, -, rfl⟩ := List.mem_map.mp hv
  refine Width.fits_iff_lt_pow.mpr (Nat.lt_of_lt_of_le (number_lt_pow _) ?_)
  exact Nat.pow_le_pow_right (by decide) (List.length_take_le _ _)

theorem elements_of_lt (h : bytes.length < w.byteCount) : elements w bytes = [] := by
  rw [elements, Nat.div_eq_of_lt h]
  rfl

@[simp] theorem elements_nil (w : Width) : elements w [] = [] := elements_of_lt w.byteCount_pos

theorem elements_of_le (h : w.byteCount ≤ bytes.length) :
    elements w bytes =
      number (bytes.take w.byteCount) :: elements w (bytes.drop w.byteCount) := by
  have hcount : bytes.length / w.byteCount =
      (bytes.length - w.byteCount) / w.byteCount + 1 := by
    rw [← Nat.add_div_right _ w.byteCount_pos, Nat.sub_add_cancel h]
  rw [elements, elements, hcount, List.range_succ_eq_map, List.map_cons, List.map_map,
    List.length_drop, Nat.zero_mul, List.drop_zero]
  congr 1
  refine List.map_congr_left fun i _ => ?_
  rw [Function.comp_apply, Nat.succ_eq_add_one, Nat.add_mul, Nat.one_mul, List.drop_drop,
    Nat.add_comm]

theorem elements_take (bytes : List UInt8) (k : Nat) :
    elements w (bytes.take (k * w.byteCount)) = (elements w bytes).take k := by
  induction k generalizing bytes with
  | zero =>
    rw [Nat.zero_mul, List.take_zero, List.take_zero, elements_nil]
  | succ k ih =>
    rw [Nat.add_mul, Nat.one_mul]
    by_cases h : w.byteCount ≤ bytes.length
    · rw [elements_of_le h, List.take_succ_cons, elements_of_le (by rw [List.length_take]; omega),
        List.take_take, Nat.min_eq_left (by omega), List.drop_take, Nat.add_sub_cancel, ih]
    · rw [List.take_of_length_le (by omega), elements_of_lt (by omega), List.take_nil]

theorem elements_drop (bytes : List UInt8) (k : Nat) :
    elements w (bytes.drop (k * w.byteCount)) = (elements w bytes).drop k := by
  induction k generalizing bytes with
  | zero => rw [Nat.zero_mul, List.drop_zero, List.drop_zero]
  | succ k ih =>
    rw [Nat.add_mul, Nat.one_mul]
    by_cases h : w.byteCount ≤ bytes.length
    · rw [elements_of_le h, List.drop_succ_cons, ← ih, List.drop_drop, Nat.add_comm]
    · rw [List.drop_of_length_le (by omega), elements_nil, elements_of_lt (by omega),
        List.drop_nil]

theorem elements_append {k : Nat} (h : bytes.length = k * w.byteCount) (rest : List UInt8) :
    elements w (bytes ++ rest) = elements w bytes ++ elements w rest := by
  have htake := elements_take (w := w) (bytes ++ rest) k
  have hdrop := elements_drop (w := w) (bytes ++ rest) k
  rw [List.take_left' h] at htake
  rw [List.drop_left' h] at hdrop
  rw [htake, hdrop, List.take_append_drop]

/-! ### Reading and writing -/

/-- **Reading gives the elements,** as many as asked for, unless there are too few bytes. -/
theorem decode_eq (w : Width) (bytes : List UInt8) (count : Nat) :
    decode w bytes count =
      if count * w.byteCount ≤ bytes.length then .ok ((elements w bytes).take count)
      else .error shortInput := by
  induction count generalizing bytes with
  | zero => rw [Nat.zero_mul, if_pos (Nat.zero_le _), decode, List.take_zero]
  | succ count ih =>
    rw [decode]
    by_cases h : w.byteCount ≤ bytes.length
    · rw [if_neg (by rw [List.length_take]; omega), ih, List.length_drop, elements_of_le h,
        List.take_succ_cons, Nat.add_mul, Nat.one_mul]
      split_ifs
      · rfl
      · omega
      · omega
      · rfl
    · rw [if_pos (by rw [List.length_take]; omega), if_neg]
      rw [Nat.add_mul, Nat.one_mul]
      omega

theorem elements_encode {values : List Nat} (h : ∀ v ∈ values, w.Fits v) :
    elements w (encode w values) = values := by
  induction values with
  | nil => exact elements_nil w
  | cons v vs ih =>
    have hlength : (encodeElement w v).length = w.byteCount := length_encodeElement w v
    rw [encode, List.flatMap_cons, elements_of_le (by rw [List.length_append]; omega),
      List.take_left' hlength, List.drop_left' hlength,
      number_encodeElement (h v List.mem_cons_self)]
    congr 1
    exact ih fun u hu => h u (List.mem_cons_of_mem v hu)

/-- **Writing bytes is writing elements.** -/
theorem elements_overwrite {offset : Nat} {values : List Nat}
    (hrange : offset + values.length ≤ bytes.length / w.byteCount)
    (hfits : ∀ v ∈ values, w.Fits v) :
    elements w (overwrite bytes (offset * w.byteCount) (encode w values)) =
      overwrite (elements w bytes) offset values := by
  have hbytes : (offset + values.length) * w.byteCount ≤ bytes.length :=
    (Nat.le_div_iff_mul_le w.byteCount_pos).mp hrange
  rw [Nat.add_mul] at hbytes
  have hfirst : (bytes.take (offset * w.byteCount)).length = offset * w.byteCount := by
    rw [List.length_take]
    omega
  rw [overwrite, overwrite, List.append_assoc, elements_append hfirst,
    elements_append (length_encode w values), elements_take, elements_encode hfits,
    length_encode, ← Nat.add_mul, elements_drop, List.append_assoc]

end Codec
end EditOverlay
