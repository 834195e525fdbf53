import EditOverlay.Proofs.RunList.View
import EditOverlay.Proofs.Store.Reads
import EditOverlay.Store.Pattern

/-! # Stores: what writes do

`Store.WritesExactly held` ties writes to a view `held` of what a store holds: a write that succeeds
stores the given elements there and nothing else, and one that fails changes nothing. It says
nothing on which writes fail. Stores in memory write so, and so do periodic stores, which hold what
has been written to them. Faults do not spoil it.

An `Unsteady` store refuses the writes that its plan says, which may be any, and otherwise writes to
the store in it. So every pattern of failures is one of an unsteady store.

A `Journal` is a store with the list of all attempts to write to it, those that failed included. -/

namespace EditOverlay

/-- A write that succeeds stores exactly the given elements, and one that fails changes nothing.
Here `held s p` is the element that the store `s` holds at `p`, if there is one. -/
structure Store.WritesExactly {σ : Type} [Store σ] (held : σ → Nat → Option Nat) : Prop where
  ok : ∀ {s s' : σ} {offset : Nat} {values : List Nat},
    Store.write s offset values = (s', .ok ()) →
      ∀ p, held s' p = ((⟨offset, values⟩ : Run).valueAt? p).or (held s p)
  error : ∀ {s s' : σ} {offset : Nat} {values : List Nat} {e : EditError},
    Store.write s offset values = (s', .error e) → ∀ p, held s' p = held s p

theorem getElem?_overwrite_eq_or {xs values : List Nat} {offset : Nat}
    (h : offset + values.length ≤ xs.length) (p : Nat) :
    (overwrite xs offset values)[p]? = ((⟨offset, values⟩ : Run).valueAt? p).or xs[p]? := by
  rw [getElem?_overwrite h, Run.valueAt?_mk]
  split_ifs with hp
  · rw [List.getElem?_eq_getElem (show p - offset < values.length by omega)]
    rfl
  · rfl

/-! ### Writes that are tried -/

/-- Refuses a write outside `length` elements, or of values that do not fit. -/
def checkWrite (w : Width) (length offset : Nat) (values : List Nat) : Except EditError Unit := do
  let _ ← checkRange offset values.length length
  w.checkAll values

theorem checkWrite_eq_ok_iff {w : Width} {length offset : Nat} {values : List Nat} :
    checkWrite w length offset values = .ok () ↔
      offset + values.length ≤ length ∧ ∀ v ∈ values, w.Fits v := by
  unfold checkWrite
  rw [bind_eq_ok, ← Width.checkAll_eq_ok_iff]
  constructor
  · rintro ⟨stop, hstop, hfits⟩
    exact ⟨(checkRange_eq_ok_iff.mp hstop).1, hfits⟩
  · rintro ⟨hrange, hfits⟩
    exact ⟨_, checkRange_eq_ok_iff.mpr ⟨hrange, rfl⟩, hfits⟩

/-- What comes of a write that is tried: a store stays as it is if the attempt fails. -/
def Store.settle {σ : Type} (s : σ) : Except EditError σ → σ × Except EditError Unit
  | .ok s' => (s', .ok ())
  | .error e => (s, .error e)

theorem Store.eq_ok_of_settle {σ : Type} {s s' : σ} {tried : Except EditError σ}
    (h : Store.settle s tried = (s', .ok ())) : tried = .ok s' := by
  cases tried with
  | ok s'' => cases h; rfl
  | error e => cases h

theorem Store.eq_of_settle_error {σ : Type} {s s' : σ} {tried : Except EditError σ} {e : EditError}
    (h : Store.settle s tried = (s', .error e)) : s' = s := by
  cases tried with
  | ok s'' => cases h
  | error e' => cases h; rfl

namespace MemoryStore

theorem write_eq_settle (s : MemoryStore) (offset : Nat) (values : List Nat) :
    Store.write s offset values = Store.settle s (s.tryWrite offset values) := by
  change s.write offset values = _
  unfold write
  cases s.tryWrite offset values <;> rfl

theorem tryWrite_eq (s : MemoryStore) (offset : Nat) (values : List Nat) :
    s.tryWrite offset values = (checkWrite s.width s.elements.length offset values).map fun _ =>
      { s with elements := overwrite s.elements offset values } := by
  unfold tryWrite checkWrite
  cases checkRange offset values.length s.elements.length with
  | error e => rfl
  | ok stop =>
    cases s.width.checkAll values <;> rfl

theorem write_eq_ok {s s' : MemoryStore} {offset : Nat} {values : List Nat}
    (h : Store.write s offset values = (s', .ok ())) :
    offset + values.length ≤ s.elements.length ∧ (∀ v ∈ values, s.width.Fits v) ∧
      s' = { s with elements := overwrite s.elements offset values } := by
  rw [write_eq_settle] at h
  have htry : s.tryWrite offset values = .ok s' := Store.eq_ok_of_settle h
  rw [tryWrite_eq] at htry
  obtain ⟨u, hcheck, rfl⟩ := map_eq_ok.mp htry
  obtain ⟨hrange, hfits⟩ := checkWrite_eq_ok_iff.mp hcheck
  exact ⟨hrange, hfits, rfl⟩

theorem write_eq_error {s s' : MemoryStore} {offset : Nat} {values : List Nat} {e : EditError}
    (h : Store.write s offset values = (s', .error e)) : s' = s :=
  Store.eq_of_settle_error (write_eq_settle s offset values ▸ h)

theorem writesExactly : Store.WritesExactly fun (s : MemoryStore) p => s.elements[p]? where
  ok h p := by
    obtain ⟨hrange, -, rfl⟩ := write_eq_ok h
    exact getElem?_overwrite_eq_or hrange p
  error h p := by rw [write_eq_error h]

end MemoryStore

/-- What has been written to a periodic store at a position, the latest write first. -/
def PatternStore.written (s : PatternStore) (p : Nat) : Option Nat :=
  s.log.findSome? fun (offset, values) => (⟨offset, values⟩ : Run).valueAt? p

theorem PatternStore.writesExactly : Store.WritesExactly PatternStore.written where
  ok {s s' offset values} hwrite p := by
    cases hwrite
    rw [written, List.findSome?_cons]
    simp only
    cases (⟨offset, values⟩ : Run).valueAt? p <;> rfl
  error hwrite := by cases hwrite

/-- **Faults spoil nothing:** a write that fails for one does not reach the store. -/
theorem Faulty.writesExactly {σ : Type} [Store σ] {held : σ → Nat → Option Nat}
    (h : Store.WritesExactly held) : Store.WritesExactly fun f : Faulty σ => held f.store where
  ok {f f' offset values} hwrite p := by
    change f.write offset values = _ at hwrite
    unfold Faulty.write at hwrite
    split_ifs at hwrite
    · cases hwrite
    · obtain ⟨rfl, hok⟩ := Prod.mk.injEq .. ▸ hwrite
      exact h.ok (Prod.ext rfl hok) p
  error {f f' offset values e} hwrite p := by
    change f.write offset values = _ at hwrite
    unfold Faulty.write at hwrite
    split_ifs at hwrite
    · cases hwrite
      rfl
    · obtain ⟨rfl, herror⟩ := Prod.mk.injEq .. ▸ hwrite
      exact h.error (Prod.ext rfl herror) p

/-- A store whose writes are counted, with a plan that gives the writes that are to fail their
error. -/
structure Unsteady (σ : Type) where
  store : σ
  plan : Nat → Option EditError
  count : Nat

namespace Unsteady

variable {σ : Type} [Store σ]

/-- A write that the plan has fail does not reach the store. -/
def write (u : Unsteady σ) (offset : Nat) (values : List Nat) :
    Unsteady σ × Except EditError Unit :=
  match u.plan u.count with
  | some e => ({ u with count := u.count + 1 }, .error e)
  | none =>
    let (store, result) := Store.write u.store offset values
    ({ u with store := store, count := u.count + 1 }, result)

instance : Store (Unsteady σ) where
  width u := Store.width u.store
  length u := Store.length u.store
  read u := Store.read u.store
  write := write

theorem write_cases (u : Unsteady σ) (offset : Nat) (values : List Nat) :
    (∃ e, Store.write u offset values = ({ u with count := u.count + 1 }, .error e)) ∨
      Store.write u offset values =
        ({ u with store := (Store.write u.store offset values).1, count := u.count + 1 },
          (Store.write u.store offset values).2) := by
  change (∃ e, u.write offset values = _) ∨ u.write offset values = _
  unfold write
  cases u.plan u.count with
  | some e => exact Or.inl ⟨e, rfl⟩
  | none => exact Or.inr rfl

/-- **Refused writes spoil nothing,** whichever they are. -/
theorem writesExactly {held : σ → Nat → Option Nat} (h : Store.WritesExactly held) :
    Store.WritesExactly fun u : Unsteady σ => held u.store where
  ok {u u' offset values} hwrite p := by
    rcases write_cases u offset values with ⟨e, hrefused⟩ | hpassed
    · rw [hrefused] at hwrite
      cases hwrite
    · rw [hpassed] at hwrite
      obtain ⟨rfl, hok⟩ := Prod.mk.injEq .. ▸ hwrite
      exact h.ok (Prod.ext rfl hok) p
  error {u u' offset values e} hwrite p := by
    rcases write_cases u offset values with ⟨e', hrefused⟩ | hpassed
    · rw [hrefused] at hwrite
      cases hwrite
      rfl
    · rw [hpassed] at hwrite
      obtain ⟨rfl, herror⟩ := Prod.mk.injEq .. ▸ hwrite
      exact h.error (Prod.ext rfl herror) p

end Unsteady

/-- A store and the attempts to write to it, in their order. -/
structure Journal (σ : Type) where
  store : σ
  attempts : RunList

namespace Journal

variable {σ : Type} [Store σ]

/-- Writes to the store and notes the attempt, whatever comes of it. -/
def write (j : Journal σ) (offset : Nat) (values : List Nat) : Journal σ × Except EditError Unit :=
  let (store, result) := Store.write j.store offset values
  (⟨store, j.attempts ++ [⟨offset, values⟩]⟩, result)

instance : Store (Journal σ) where
  width j := Store.width j.store
  length j := Store.length j.store
  read j := Store.read j.store
  write := write

end Journal
end EditOverlay
