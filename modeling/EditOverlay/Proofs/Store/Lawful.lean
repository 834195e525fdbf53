import EditOverlay.Proofs.Store.File

/-! # Stores: lists of elements that may refuse to be written

A lawful store holds a list of elements: reads give them exactly, they fit the width, and a write
stores exactly the given elements or changes nothing. Which writes succeed is left open. `sound`
singles out the states of a store for which this is so.

Stores in memory are lawful if their elements fit, and files are in either mode of access. An
unsteady store is as lawful as the store in it, so any pattern of failures is one of a lawful store.

`StaysExact` asks for less: whatever a write does to the elements, reads stay exact, and width and
length stay. -/

namespace EditOverlay

/-- A store with `sound` states holds the elements `contents`, and nothing that is done to it shows
otherwise. -/
structure Store.Lawful {σ : Type} [Store σ] (sound : σ → Prop) (contents : σ → List Nat) :
    Prop where
  exact : ∀ {s}, sound s → Store.Exact s (contents s)
  fits : ∀ {s}, sound s → ∀ v ∈ contents s, (Store.width s).Fits v
  writes : Store.WritesExactly fun (s : σ) p => (contents s)[p]?
  sound_write : ∀ {s : σ} offset values, sound s → sound (Store.write s offset values).1
  width_write : ∀ (s : σ) offset values,
    Store.width (Store.write s offset values).1 = Store.width s

theorem Store.write_induction {σ : Type} [Store σ] {P : σ → Prop} (s : σ) (offset : Nat)
    (values : List Nat)
    (ok : ∀ s', Store.write s offset values = (s', .ok ()) → P s')
    (error : ∀ s' e, Store.write s offset values = (s', .error e) → P s') :
    P (Store.write s offset values).1 := by
  rcases h : Store.write s offset values with ⟨s', e | u⟩
  · exact error s' e h
  · exact ok s' h

/-- The `sound` states of a store are exact, and a write inside, whatever it does and whether it
succeeds or fails, leads from them to such states, of the same width and length. -/
structure Store.StaysExact {σ : Type} [Store σ] (sound : σ → Prop) : Prop where
  exact : ∀ {s}, sound s → ∃ contents, Store.Exact s contents
  write : ∀ {s : σ} {offset values}, sound s → offset + values.length ≤ Store.length s →
    sound (Store.write s offset values).1 ∧
      Store.width (Store.write s offset values).1 = Store.width s ∧
      Store.length (Store.write s offset values).1 = Store.length s

namespace Store.Lawful

variable {σ : Type} [Store σ] {sound : σ → Prop} {contents : σ → List Nat}

theorem length_contents_write (hlaw : Lawful sound contents) {s : σ} {offset : Nat}
    {values : List Nat} (hin : offset + values.length ≤ (contents s).length) :
    (contents (Store.write s offset values).1).length = (contents s).length := by
  refine Store.write_induction (P := fun s' => (contents s').length = (contents s).length) s offset
    values (fun s' hwrite => ?_) fun s' e hwrite => ?_
  · have hcontents : contents s' = overwrite (contents s) offset values := by
      refine List.ext_getElem? fun p => ?_
      rw [getElem?_overwrite_eq_or hin]
      exact hlaw.writes.ok hwrite p
    rw [hcontents, length_overwrite hin]
  · have hcontents : contents s' = contents s :=
      List.ext_getElem? fun p => hlaw.writes.error hwrite p
    rw [hcontents]

theorem staysExact (hlaw : Lawful sound contents) : StaysExact sound where
  exact hs := ⟨_, hlaw.exact hs⟩
  write {s offset values} hs hin := by
    have hs' := hlaw.sound_write offset values hs
    refine ⟨hs', hlaw.width_write s offset values, ?_⟩
    rw [(hlaw.exact hs).length_eq] at hin ⊢
    rw [(hlaw.exact hs').length_eq, hlaw.length_contents_write hin]

end Store.Lawful

/-! ### Memory and files -/

/-- The elements of a store in memory fit. -/
def MemoryStore.Sound (s : MemoryStore) : Prop := ∀ v ∈ s.elements, s.width.Fits v

theorem MemoryStore.lawful : Store.Lawful MemoryStore.Sound MemoryStore.elements where
  exact {s} _ := s.exact
  fits h := h
  writes := MemoryStore.writesExactly
  sound_write {s} offset values h := by
    refine Store.write_induction s offset values (fun s' hwrite => ?_) fun s' e hwrite => ?_
    · obtain ⟨-, hfits, rfl⟩ := MemoryStore.write_eq_ok hwrite
      intro v hv
      rcases List.mem_append.mp hv with hv | hv
      · rcases List.mem_append.mp hv with hv | hv
        · exact h v (List.mem_of_mem_take hv)
        · exact hfits v hv
      · exact h v (List.mem_of_mem_drop hv)
    · rwa [MemoryStore.write_eq_error hwrite]
  width_write s offset values := by
    refine Store.write_induction (P := fun s' => Store.width s' = Store.width s) s offset values
      (fun s' hwrite => ?_) fun s' e hwrite => ?_
    · obtain ⟨-, -, rfl⟩ := MemoryStore.write_eq_ok hwrite
      rfl
    · rw [MemoryStore.write_eq_error hwrite]

/-- **Files are lawful,** whatever their bytes and however they are opened. -/
theorem FileStore.lawful : Store.Lawful (fun _ => True) FileStore.elements where
  exact {f} _ := f.exact
  fits _ _ hv := FileStore.fits_of_mem_elements hv
  writes := FileStore.writesExactly
  sound_write _ _ _ := trivial
  width_write f offset values := by
    refine Store.write_induction (P := fun f' => Store.width f' = Store.width f) f offset values
      (fun f' hwrite => ?_) fun f' e hwrite => ?_
    · obtain ⟨-, -, -, rfl⟩ := FileStore.write_eq_ok hwrite
      rfl
    · rw [FileStore.write_eq_error hwrite]

/-! ### Stores that refuse writes -/

theorem Unsteady.exact {σ : Type} [Store σ] {u : Unsteady σ} {contents : List Nat}
    (h : Store.Exact u.store contents) : Store.Exact u contents := ⟨h.length_eq, h.read_eq⟩

/-- **An unsteady store is as lawful as the store in it,** whatever its plan. -/
theorem Unsteady.lawful {σ : Type} [Store σ] {sound : σ → Prop} {contents : σ → List Nat}
    (h : Store.Lawful sound contents) :
    Store.Lawful (fun u : Unsteady σ => sound u.store) fun u => contents u.store where
  exact hs := Unsteady.exact (h.exact hs)
  fits hs := h.fits hs
  writes := Unsteady.writesExactly h.writes
  sound_write {u} offset values hs := by
    rcases Unsteady.write_cases u offset values with ⟨e, hrefused⟩ | hpassed
    · rw [hrefused]
      exact hs
    · rw [hpassed]
      exact h.sound_write offset values hs
  width_write u offset values := by
    rcases Unsteady.write_cases u offset values with ⟨e, hrefused⟩ | hpassed
    · rw [hrefused]
      rfl
    · rw [hpassed]
      exact h.width_write u.store offset values

end EditOverlay
