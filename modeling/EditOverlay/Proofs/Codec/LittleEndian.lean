import EditOverlay.Proofs.Codec.Patch
import Mathlib.Algebra.BigOperators.Ring.Finset

/-! # Elements as bytes: digit by digit

The byte `j` of an element is its digit `j` to the base 256 (`getElem?_digits`), and an element is
the sum of its digits with their weights (`number_eq_sum`). With the place of an element in a list
of bytes (`getElem?_encode`, `getElem?_elements`) this says of all bytes and all elements what they
are. Values that do not fit lose their high digits (`elements_encode_eq_map`); so what is written
and read back is the same exactly if it fits, and bytes that are read and written back are always
the same (`little_endian_bijection`). -/

namespace EditOverlay

theorem Width.two_pow_eq (w : Width) : 2 ^ (8 * w.byteCount) = 256 ^ w.byteCount := by
  rw [Nat.pow_mul]

namespace Codec

variable {w : Width}

/-! ### The digits of one element -/

theorem getElem?_digits {k j : Nat} (h : j < k) (value : Nat) :
    (digits k value)[j]? = some (UInt8.ofNat (value / 256 ^ j)) := by
  induction k generalizing j value with
  | zero => omega
  | succ k ih =>
    rw [digits]
    cases j with
    | zero => simp
    | succ j =>
      rw [List.getElem?_cons_succ, ih (by omega), Nat.div_div_eq_div_mul, ← Nat.pow_succ']

theorem mod_pow_div_mod {k j : Nat} (h : j < k) (value : Nat) :
    value % 256 ^ k / 256 ^ j % 256 = value / 256 ^ j % 256 := by
  obtain ⟨l, rfl⟩ : ∃ l, k = j + (l + 1) := ⟨k - j - 1, by omega⟩
  have hdvd : 256 ∣ 256 ^ (l + 1) := Dvd.intro_left (256 ^ l) (Nat.pow_succ 256 l).symm
  rw [Nat.pow_add, Nat.mod_mul_right_div_self, Nat.mod_mod_of_dvd _ hdvd]

theorem digits_mod (k value : Nat) : digits k (value % 256 ^ k) = digits k value := by
  have h := digits_number (digits k value)
  rwa [length_digits, number_digits] at h

theorem number_eq_sum (bytes : List UInt8) : number bytes =
    ∑ j ∈ Finset.range bytes.length, (bytes.getD j 0).toNat * 256 ^ j := by
  induction bytes with
  | nil => rfl
  | cons b bs ih =>
    have hshift : ∀ j, ((b :: bs).getD (j + 1) 0).toNat * 256 ^ (j + 1) =
        256 * ((bs.getD j 0).toNat * 256 ^ j) := fun j => by
      rw [List.getD_cons_succ, Nat.pow_succ]
      ac_rfl
    rw [number, ih, List.length_cons, Finset.sum_range_succ',
      Finset.sum_congr rfl fun j _ => hshift j, ← Finset.mul_sum, List.getD_cons_zero, Nat.pow_zero,
      Nat.mul_one, Nat.add_comm]

/-! ### The place of an element in the bytes -/

theorem getElem?_encode {j : Nat} (hj : j < w.byteCount) (values : List Nat) (i : Nat) :
    (encode w values)[i * w.byteCount + j]? =
      values[i]?.bind fun v => (encodeElement w v)[j]? := by
  induction values generalizing i with
  | nil => simp [encode]
  | cons v vs ih =>
    have hlength := length_encodeElement w v
    rw [encode, List.flatMap_cons]
    cases i with
    | zero => rw [List.getElem?_append_left (by omega)]; simp
    | succ i =>
      have hplace : (i + 1) * w.byteCount + j = w.byteCount + (i * w.byteCount + j) := by
        rw [Nat.succ_mul]; omega
      rw [List.getElem?_append_right (by omega), hplace, hlength, Nat.add_sub_cancel_left,
        List.getElem?_cons_succ]
      exact ih i

theorem getElem?_elements {bytes : List UInt8} {i : Nat}
    (h : (i + 1) * w.byteCount ≤ bytes.length) :
    (elements w bytes)[i]? = some (∑ j ∈ Finset.range w.byteCount,
      (bytes.getD (i * w.byteCount + j) 0).toNat * 256 ^ j) := by
  have hi : i < bytes.length / w.byteCount := (Nat.le_div_iff_mul_le w.byteCount_pos).mpr h
  have hlength : ((bytes.drop (i * w.byteCount)).take w.byteCount).length = w.byteCount := by
    rw [Nat.succ_mul] at h
    simp; omega
  rw [elements, List.getElem?_map, List.getElem?_range hi, Option.map_some, number_eq_sum, hlength]
  refine congrArg some (Finset.sum_congr rfl fun j hj => ?_)
  have hj : j < w.byteCount := Finset.mem_range.mp hj
  simp only [List.getD_eq_getElem?_getD, List.getElem?_take_of_lt hj, List.getElem?_drop]

/-! ### There and back -/

theorem encode_map_mod (w : Width) (values : List Nat) :
    encode w (values.map (· % 256 ^ w.byteCount)) = encode w values := by
  rw [encode, encode, List.flatMap_map]
  exact congrArg (values.flatMap ·) (funext fun v => digits_mod w.byteCount v)

theorem elements_encode_eq_map (w : Width) (values : List Nat) :
    elements w (encode w values) = values.map (· % 256 ^ w.byteCount) := by
  rw [← encode_map_mod]
  refine elements_encode fun v hv => ?_
  obtain ⟨u, -, rfl⟩ := List.mem_map.mp hv
  exact Width.fits_iff_lt_pow.mpr (Nat.mod_lt _ (Nat.pow_pos (by decide)))

theorem decode_encode (w : Width) (values : List Nat) : decode w (encode w values) values.length =
    .ok (values.map (· % 256 ^ w.byteCount)) := by
  rw [decode_eq, length_encode, if_pos (Nat.le_refl _), elements_encode_eq_map,
    List.take_of_length_le (by rw [List.length_map])]

theorem map_mod_eq_self_iff {values : List Nat} :
    values.map (· % 256 ^ w.byteCount) = values ↔ w.checkAll values = .ok () := by
  have hpos : 0 < 256 ^ w.byteCount := Nat.pow_pos (by decide)
  rw [Width.checkAll_eq_ok_iff]
  nth_rewrite 2 [← List.map_id values]
  rw [List.map_inj_left]
  refine forall₂_congr fun v _ => ?_
  rw [Width.fits_iff_lt_pow, id_eq, Nat.mod_eq_iff_lt (Nat.ne_of_gt hpos)]

theorem decode_eq_ok_iff {bytes : List UInt8} {count : Nat} {values : List Nat} :
    decode w bytes count = .ok values ↔
      count * w.byteCount ≤ bytes.length ∧ values = (elements w bytes).take count := by
  rw [decode_eq]
  split_ifs with h
  · simp [h, eq_comm]
  · simp [h]

theorem encode_take_elements {bytes : List UInt8} {count : Nat}
    (h : count * w.byteCount ≤ bytes.length) :
    encode w ((elements w bytes).take count) = bytes.take (count * w.byteCount) := by
  rw [← elements_take]
  exact encode_elements (k := count) (by rw [List.length_take]; omega)

/-- **The codec is a bijection between fitting values and whole elements of bytes, lowest byte
first.** Values become as many bytes as their elements take, and the byte `j` of the element `i` is
the digit `j` of the value `i`, without what does not fit. Reading as many elements as asked for
succeeds exactly if there are bytes for them, whatever is behind; each is the sum of its bytes with
their weights, and fits. Written and read back, values lose what does not fit, and are the same
exactly if the check of the width accepts them; read and written back, bytes are the same. -/
theorem little_endian_bijection (w : Width) :
    (∀ values : List Nat,
      (encode w values).length = values.length * w.byteCount ∧
      (∀ i, ∀ j < w.byteCount, (encode w values)[i * w.byteCount + j]?.map UInt8.toNat =
        values[i]?.map fun v => v % 2 ^ (8 * w.byteCount) / 256 ^ j % 256) ∧
      decode w (encode w values) values.length =
        .ok (values.map (· % 2 ^ (8 * w.byteCount))) ∧
      (decode w (encode w values) values.length = .ok values ↔ w.checkAll values = .ok ())) ∧
    ∀ (bytes : List UInt8) (count : Nat),
      ((∃ values, decode w bytes count = .ok values) ↔ count * w.byteCount ≤ bytes.length) ∧
      (∀ e, decode w bytes count = .error e ↔
        bytes.length < count * w.byteCount ∧ e = shortInput) ∧
      ∀ values, decode w bytes count = .ok values →
        values.length = count ∧
        (∀ i < count, values[i]? = some (∑ j ∈ Finset.range w.byteCount,
          (bytes.getD (i * w.byteCount + j) 0).toNat * 256 ^ j)) ∧
        encode w values = bytes.take (count * w.byteCount) ∧ w.checkAll values = .ok () := by
  rw [Width.two_pow_eq]
  refine ⟨fun values => ⟨length_encode w values, fun i j hj => ?_, decode_encode w values, ?_⟩,
    fun bytes count => ⟨?_, fun e => ?_, fun values hvalues => ?_⟩⟩
  · rw [getElem?_encode hj]
    cases values[i]? with
    | none => rfl
    | some v =>
      simp only [Option.bind_some, Option.map_some, encodeElement, getElem?_digits hj,
        UInt8.toNat_ofNat', mod_pow_div_mod hj]
  · rw [decode_encode, Except.ok.injEq, map_mod_eq_self_iff]
  · simp [decode_eq_ok_iff]
  · rw [decode_eq]
    split_ifs with h
    · simp; omega
    · simp [eq_comm]; omega
  · obtain ⟨hcount, rfl⟩ := decode_eq_ok_iff.mp hvalues
    have hle : count ≤ bytes.length / w.byteCount :=
      (Nat.le_div_iff_mul_le w.byteCount_pos).mpr hcount
    refine ⟨by simp [hle], fun i hi => ?_, encode_take_elements hcount, ?_⟩
    · have hstop := Nat.mul_le_mul_right w.byteCount (Nat.succ_le_of_lt hi)
      rw [List.getElem?_take_of_lt hi, getElem?_elements (Nat.le_trans hstop hcount)]
    · exact Width.checkAll_eq_ok_iff.mpr fun v hv => fits_of_mem_elements (List.mem_of_mem_take hv)

/-- Two words: written, the second loses its high digit; read, the byte behind them is ignored. -/
theorem little_endian_bijection_two_words :
    1 < Width.w16.byteCount ∧
      (encode .w16 [0x1234, 0x1abcd])[1 * 2 + 1]?.map UInt8.toNat = some 0xab ∧
      decode .w16 [0x34, 0x12, 0xcd, 0xab, 0xff] 2 = .ok [0x1234, 0xabcd] ∧
      encode .w16 [0x1234, 0xabcd] = [0x34, 0x12, 0xcd, 0xab] := by
  have hread : decode .w16 [0x34, 0x12, 0xcd, 0xab, 0xff] 2 = .ok [0x1234, 0xabcd] := by decide
  obtain ⟨-, hdigit, -, -⟩ := (little_endian_bijection .w16).1 [0x1234, 0x1abcd]
  obtain ⟨-, -, hback⟩ := (little_endian_bijection .w16).2 [0x34, 0x12, 0xcd, 0xab, 0xff] 2
  exact ⟨by decide, hdigit 1 1 (by decide), hread, (hback _ hread).2.2.1⟩

end Codec
end EditOverlay
