import EditOverlay.Proofs.Codec.Elements
import EditOverlay.Proofs.RunList.Shape

/-! # Elements as bytes: patches

A list of bytes is the bytes of its elements and, behind them, the bytes that make no whole element
(`rest`). So bytes with the same elements and the same rest are the same (`eq_of_elements_eq`).

`patch` writes edits over bytes, one after the other, the later ones over the earlier ones;
`overwriteAll` does the same with elements. Inside the elements the two agree, and a patch leaves
the rest and the length (`patch_of_within`). -/

namespace EditOverlay

/-- The list with edits written over it, in their order. -/
def overwriteAll (xs : List Nat) (edits : List Run) : List Nat :=
  edits.foldl (fun xs e => overwrite xs e.start e.values) xs

namespace Codec

variable {w : Width} {bytes : List UInt8}

/-! ### Elements and the rest -/

/-- The bytes at the end that make no whole element. -/
def rest (w : Width) (bytes : List UInt8) : List UInt8 :=
  bytes.drop (bytes.length - bytes.length % w.byteCount)

theorem length_sub_mod (w : Width) (bytes : List UInt8) :
    bytes.length - bytes.length % w.byteCount = bytes.length / w.byteCount * w.byteCount := by
  have := Nat.div_add_mod' bytes.length w.byteCount
  omega

theorem digits_number (bytes : List UInt8) : digits bytes.length (number bytes) = bytes := by
  induction bytes with
  | nil => rfl
  | cons b bs ih =>
    have hb := b.toNat_lt
    have hlow : UInt8.ofNat (b.toNat + 256 * number bs) = b := by
      apply UInt8.toNat_inj.mp
      rw [UInt8.toNat_ofNat']
      omega
    have hhigh : (b.toNat + 256 * number bs) / 256 = number bs := by omega
    rw [List.length_cons, number, digits, hlow, hhigh, ih]

theorem encodeElement_number (h : bytes.length = w.byteCount) :
    encodeElement w (number bytes) = bytes := by
  rw [encodeElement, ← h, digits_number]

theorem encode_elements {k : Nat} (h : bytes.length = k * w.byteCount) :
    encode w (elements w bytes) = bytes := by
  induction k generalizing bytes with
  | zero =>
    rw [Nat.zero_mul, List.length_eq_zero_iff] at h
    rw [h, elements_nil]
    rfl
  | succ k ih =>
    rw [Nat.add_mul, Nat.one_mul] at h
    have hfirst : (bytes.take w.byteCount).length = w.byteCount := by
      rw [List.length_take]
      omega
    have hothers : encode w (elements w (bytes.drop w.byteCount)) = bytes.drop w.byteCount :=
      ih (by rw [List.length_drop]; omega)
    rw [encode] at hothers
    rw [elements_of_le (by omega), encode, List.flatMap_cons, encodeElement_number hfirst, hothers,
      List.take_append_drop]

theorem encode_elements_append_rest (w : Width) (bytes : List UInt8) :
    encode w (elements w bytes) ++ rest w bytes = bytes := by
  have hdiv := Nat.div_mul_le_self bytes.length w.byteCount
  have hwhole : encode w (elements w (bytes.take (bytes.length / w.byteCount * w.byteCount))) =
      bytes.take (bytes.length / w.byteCount * w.byteCount) :=
    encode_elements (k := bytes.length / w.byteCount) (by rw [List.length_take]; omega)
  rw [elements_take, List.take_of_length_le (by rw [length_elements])] at hwhole
  rw [hwhole, rest, length_sub_mod, List.take_append_drop]

theorem eq_of_elements_eq {bytes' : List UInt8} (helements : elements w bytes = elements w bytes')
    (hrest : rest w bytes = rest w bytes') : bytes = bytes' := by
  rw [← encode_elements_append_rest w bytes, helements, hrest, encode_elements_append_rest]

/-! ### Writing inside the elements -/

theorem stop_le_length {r : Run} {count : Nat} (h : r.stop ≤ count / w.byteCount) :
    r.start * w.byteCount + (encode w r.values).length ≤ count := by
  have hstop := (Nat.le_div_iff_mul_le w.byteCount_pos).mp h
  rw [Run.stop, Run.length, Nat.add_mul] at hstop
  rwa [length_encode]

theorem length_overwrite_encode {e : Run} (h : e.stop ≤ bytes.length / w.byteCount) :
    (overwrite bytes (e.start * w.byteCount) (encode w e.values)).length = bytes.length :=
  length_overwrite (stop_le_length h)

theorem rest_overwrite_encode {e : Run} (h : e.stop ≤ bytes.length / w.byteCount) :
    rest w (overwrite bytes (e.start * w.byteCount) (encode w e.values)) = rest w bytes := by
  have hbytes := stop_le_length h
  have hwhole : e.start * w.byteCount + (encode w e.values).length ≤
      bytes.length - bytes.length % w.byteCount := by
    have hstop := Nat.mul_le_mul_right w.byteCount h
    rw [Run.stop, Run.length, Nat.add_mul, ← length_encode] at hstop
    rwa [length_sub_mod]
  refine List.ext_getElem? fun i => ?_
  rw [rest, rest, length_overwrite_encode h, List.getElem?_drop, List.getElem?_drop,
    getElem?_overwrite hbytes, if_neg (by omega)]

/-- The bytes with edits written over them, in their order. -/
def patch (w : Width) (bytes : List UInt8) (edits : List Run) : List UInt8 :=
  edits.foldl (fun bytes e => overwrite bytes (e.start * w.byteCount) (encode w e.values)) bytes

@[simp] theorem patch_nil (w : Width) (bytes : List UInt8) : patch w bytes [] = bytes := rfl

theorem patch_cons (w : Width) (bytes : List UInt8) (e : Run) (edits : List Run) :
    patch w bytes (e :: edits) =
      patch w (overwrite bytes (e.start * w.byteCount) (encode w e.values)) edits := rfl

/-- **Inside the elements a patch is `overwriteAll`,** and it leaves the rest and the length. -/
theorem patch_of_within {edits : List Run}
    (h : ∀ e ∈ edits, e.Within w.Fits (bytes.length / w.byteCount)) :
    elements w (patch w bytes edits) = overwriteAll (elements w bytes) edits ∧
      rest w (patch w bytes edits) = rest w bytes ∧
      (patch w bytes edits).length = bytes.length := by
  induction edits generalizing bytes with
  | nil => exact ⟨rfl, rfl, rfl⟩
  | cons e edits ih =>
    obtain ⟨hstop, hfits⟩ := h e List.mem_cons_self
    have hlength := length_overwrite_encode hstop
    have hothers : ∀ e' ∈ edits, e'.Within w.Fits
        ((overwrite bytes (e.start * w.byteCount) (encode w e.values)).length / w.byteCount) :=
      fun e' he' => hlength.symm ▸ h e' (List.mem_cons_of_mem e he')
    obtain ⟨helements, hrest, hpatched⟩ := ih hothers
    rw [patch_cons]
    refine ⟨?_, ?_, by rw [hpatched, hlength]⟩
    · rw [helements, elements_overwrite hstop hfits]
      rfl
    · rw [hrest, rest_overwrite_encode hstop]

end Codec
end EditOverlay
