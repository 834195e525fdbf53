import EditOverlay.Proofs.Overlay.LastWrite

/-! # Overlays: reading through them

Over a store that reads its elements exactly, every way of reading through an overlay gives the
elements with the changes over them (`RunList.overlaid`), or refuses what is not inside. So the ways
agree with each other.

* `LaidOver.values_eq`: ranges are read from that list as a store that holds it would read them.
* `LaidOver.value_eq`: so are single elements, although the store is asked for unchanged ones
  only. -/

namespace EditOverlay.Overlay

open RunList

variable {σ : Type} [Store σ] {o : Overlay} {s : σ} {contents : List Nat} {offset count p : Nat}

/-- The store holds `contents`, and the overlay is one for stores of its width and length. -/
structure LaidOver (o : Overlay) (s : σ) (contents : List Nat) : Prop where
  exact : Store.Exact s contents
  width_eq : Store.width s = o.width
  length_eq : o.length = contents.length
  canonical : Canonical o.runs

namespace LaidOver

theorem values_eq (h : LaidOver o s contents) (offset count : Nat) :
    o.values s offset count = (checkRange offset count contents.length).map fun stop =>
      ((o.runs.overlaid contents).take stop).drop offset := by
  unfold values
  rw [h.length_eq, Width.ensureSame_eq_ok_iff.mpr h.width_eq.symm, h.exact.read_eq]
  cases hcheck : checkRange offset count contents.length with
  | error e => rfl
  | ok stop => exact congrArg Except.ok (h.canonical.apply_slice contents offset stop)

theorem values_eq_ok_iff (h : LaidOver o s contents) {xs : List Nat} :
    o.values s offset count = .ok xs ↔ offset + count ≤ contents.length ∧
      ((o.runs.overlaid contents).take (offset + count)).drop offset = xs := by
  rw [h.values_eq, map_checkRange_eq_ok_iff]

theorem value_eq (h : LaidOver o s contents) (hp : p < contents.length) :
    o.value s p = .ok ((o.runs.valueAt? p).getD contents[p]) :=
  value_eq_ok h.width_eq (by rw [h.length_eq]; exact hp) (h.exact.read_one hp)

theorem value_eq_ok_iff (h : LaidOver o s contents) {v : Nat} :
    o.value s p = .ok v ↔ (o.runs.overlaid contents)[p]? = some v := by
  by_cases hp : p < contents.length
  · rw [h.value_eq hp, getElem?_overlaid, List.getElem?_eq_getElem hp, Option.map_some,
      Except.ok.injEq, Option.some.injEq]
  · have hrefused : o.value s p = .error (.outOfRange p o.length) :=
      if_pos (by rw [h.length_eq]; omega)
    have hnone : (o.runs.overlaid contents)[p]? = none :=
      List.getElem?_eq_none (by rw [length_overlaid]; omega)
    rw [hrefused, hnone]
    simp

/-! ### The ways agree -/

theorem exists_values_iff (h : LaidOver o s contents) :
    (∃ xs, o.values s offset count = .ok xs) ↔ offset + count ≤ contents.length := by
  constructor
  · rintro ⟨xs, hxs⟩
    exact (h.values_eq_ok_iff.mp hxs).1
  · exact fun hrange => ⟨_, h.values_eq_ok_iff.mpr ⟨hrange, rfl⟩⟩

theorem exists_value_iff (h : LaidOver o s contents) :
    (∃ v, o.value s p = .ok v) ↔ p < contents.length := by
  constructor
  · rintro ⟨v, hv⟩
    obtain ⟨hp, -⟩ := List.getElem?_eq_some_iff.mp (h.value_eq_ok_iff.mp hv)
    rwa [length_overlaid] at hp
  · exact fun hp => ⟨_, h.value_eq hp⟩

theorem length_and_value_of_values (h : LaidOver o s contents) {xs : List Nat}
    (hvalues : o.values s offset count = .ok xs) :
    xs.length = count ∧ ∀ i < count, ∃ v, xs[i]? = some v ∧ o.value s (offset + i) = .ok v := by
  obtain ⟨hrange, rfl⟩ := h.values_eq_ok_iff.mp hvalues
  have hlength : (((o.runs.overlaid contents).take (offset + count)).drop offset).length =
      count := by
    rw [List.length_drop, List.length_take, length_overlaid]
    omega
  refine ⟨hlength, fun i hi => ?_⟩
  obtain ⟨v, hv⟩ := h.exists_value_iff.mpr (show offset + i < contents.length by omega)
  refine ⟨v, ?_, hv⟩
  rw [List.getElem?_drop, List.getElem?_take_of_lt (by omega)]
  exact h.value_eq_ok_iff.mp hv

theorem values_append (h : LaidOver o s contents) {m n : Nat} {zs : List Nat}
    (hvalues : o.values s offset (m + n) = .ok zs) :
    ∃ xs ys, o.values s offset m = .ok xs ∧ o.values s (offset + m) n = .ok ys ∧ zs = xs ++ ys := by
  obtain ⟨hrange, rfl⟩ := h.values_eq_ok_iff.mp hvalues
  have hslice : ∀ (xs : List Nat) (i j : Nat), (xs.take (i + j)).drop i = (xs.drop i).take j :=
    fun xs i j => List.take_drop.symm
  refine ⟨_, _, h.values_eq_ok_iff.mpr ⟨by omega, rfl⟩, h.values_eq_ok_iff.mpr ⟨by omega, rfl⟩, ?_⟩
  rw [hslice, hslice, hslice, List.take_add, List.drop_drop]

/-- **Only changed elements differ from the store's.** -/
theorem exists_read_and_value (h : LaidOver o s contents) (hp : p < contents.length) :
    ∃ x v, Store.read s p 1 = .ok [x] ∧ o.value s p = .ok v ∧ (v ≠ x → o.isChanged p = true) := by
  refine ⟨_, _, h.exact.read_one hp, h.value_eq hp, fun hne => ?_⟩
  unfold isChanged
  cases hchanged : o.runs.valueAt? p with
  | some w => rfl
  | none =>
    rw [hchanged] at hne
    exact absurd rfl hne

end LaidOver

/-! ### Reads that may fail -/

/-- **A range that is read is read exactly,** whichever other reads fail. -/
theorem slice_of_values (h : Canonical o.runs) (hs : Store.ReadsTruly s contents) {xs : List Nat}
    (hvalues : o.values s offset count = .ok xs) : offset + count ≤ contents.length ∧
      ((o.runs.overlaid contents).take (offset + count)).drop offset = xs := by
  obtain ⟨-, -, elements, hread, rfl⟩ := values_eq_ok hvalues
  obtain ⟨hrange, rfl⟩ := hs offset count elements hread
  exact ⟨hrange, (h.apply_slice contents offset (offset + count)).symm⟩

theorem values_congr {o' : Overlay} (h : Canonical o.runs) (h' : Canonical o'.runs)
    (hs : Store.ReadsTruly s contents) (hwidth : o.width = o'.width)
    (hlength : o.length = o'.length)
    (hshown : o.runs.overlaid contents = o'.runs.overlaid contents) (offset count : Nat) :
    o.values s offset count = o'.values s offset count := by
  unfold values
  rw [hwidth, hlength]
  cases hread : Store.read s offset count with
  | error e => rfl
  | ok elements =>
    obtain ⟨-, rfl⟩ := hs offset count elements hread
    have hlaid : o.apply ((contents.take (offset + count)).drop offset) offset none =
        o'.apply ((contents.take (offset + count)).drop offset) offset none := by
      unfold apply
      rw [Option.getD_none, h.apply_slice, h'.apply_slice, hshown]
    simp only [bind_ok, hlaid]

/-- **A range is read element by element,** also where the store is not as long as the overlay. -/
theorem value_of_values (h : Canonical o.runs) (hs : Store.Exact s contents) {xs : List Nat}
    (hvalues : o.values s offset count = .ok xs) {i v : Nat} (hv : xs[i]? = some v) :
    o.value s (offset + i) = .ok v := by
  obtain ⟨hlength, hwidth, -⟩ := values_eq_ok hvalues
  obtain ⟨hrange, rfl⟩ := slice_of_values h hs.readsTruly hvalues
  have hi : i < count := by
    have hlt := (List.getElem?_eq_some_iff.mp hv).1
    rw [List.length_drop, List.length_take] at hlt
    omega
  rw [List.getElem?_drop, List.getElem?_take_of_lt (by omega), getElem?_overlaid,
    List.getElem?_eq_getElem (show offset + i < contents.length by omega)] at hv
  rw [value_eq_ok hwidth.symm (by omega) (hs.read_one (by omega))]
  exact congrArg Except.ok (Option.some.inj hv)

end EditOverlay.Overlay
