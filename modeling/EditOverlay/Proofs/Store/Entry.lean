import EditOverlay.Proofs.Except
import EditOverlay.Store.File

/-! # Stores in files: what can be opened

Files and devices can be opened, unless the system refuses (`Entry.openedBytes_eq_ok_iff`). Where it
refuses both ways of opening for the same reason, or neither, they come to the same
(`Entry.OpensAlike.openedBytes_eq`). -/

namespace EditOverlay

theorem heed_bind_eq_ok_iff {α : Type} {reason : Option String} {x : Except EditError α} {a : α} :
    (heed reason >>= fun _ => x) = .ok a ↔ reason = none ∧ x = .ok a := by
  cases reason <;> simp [heed, bind_ok, bind_error]

namespace Entry

variable {entry : Entry} {guard : Guard} {access : Access} {bytes : List UInt8}

/-- There are the given bytes: in a file, or none in a device. -/
def Holds (entry : Entry) (guard : Guard) (bytes : List UInt8) : Prop :=
  entry = .file guard bytes ∨ entry = .device guard ∧ bytes = []

/-- **What is opened** is a file or a device, and the system does not refuse. -/
theorem openedBytes_eq_ok_iff : entry.openedBytes access = .ok bytes ↔
    ∃ guard, entry.Holds guard bytes ∧ guard.reason access = none := by
  unfold openedBytes Holds
  cases entry with
  | absent why => simp
  | folder guard =>
    cases access with
    | readOnly => simp [heed_bind_eq_ok_iff]
    | readWrite => simp
  | file guard old =>
    simp only [file.injEq, reduceCtorEq, false_and, or_false]
    refine heed_bind_eq_ok_iff.trans ⟨?_, ?_⟩
    · rintro ⟨hopen, h⟩
      cases h
      exact ⟨guard, ⟨rfl, rfl⟩, hopen⟩
    · rintro ⟨guard', ⟨rfl, rfl⟩, hopen⟩
      exact ⟨hopen, rfl⟩
  | device guard =>
    simp only [device.injEq, reduceCtorEq, false_or]
    refine heed_bind_eq_ok_iff.trans ⟨?_, ?_⟩
    · rintro ⟨hopen, h⟩
      cases h
      exact ⟨guard, ⟨rfl, rfl⟩, hopen⟩
    · rintro ⟨guard', ⟨rfl, rfl⟩, hopen⟩
      exact ⟨hopen, rfl⟩

theorem Holds.openedBytes_eq (h : entry.Holds guard bytes) (hopen : guard.reason access = none) :
    entry.openedBytes access = .ok bytes := openedBytes_eq_ok_iff.mpr ⟨guard, h, hopen⟩

theorem Holds.unique {guard' : Guard} {bytes' : List UInt8} (h : entry.Holds guard bytes)
    (h' : entry.Holds guard' bytes') : guard = guard' ∧ bytes = bytes' := by
  obtain rfl | ⟨rfl, rfl⟩ := h
  · obtain hfile | ⟨hdevice, -⟩ := h'
    · exact file.inj hfile
    · cases hdevice
  · obtain hfile | ⟨hdevice, rfl⟩ := h'
    · cases hfile
    · exact ⟨device.inj hdevice, rfl⟩

/-- There is nothing, or a file which the system lets be opened in both ways, or refuses in both for
the same reason. -/
def OpensAlike (entry : Entry) : Prop :=
  (∃ why, entry = .absent why) ∨
    ∃ guard bytes, entry = .file guard bytes ∧ guard.reading = guard.updating

theorem OpensAlike.openedBytes_eq (h : entry.OpensAlike) (access access' : Access) :
    entry.openedBytes access = entry.openedBytes access' := by
  obtain ⟨why, rfl⟩ | ⟨guard, bytes, rfl, hguard⟩ := h
  · rfl
  · have hreason : ∀ access, guard.reason access = guard.reading := by
      rintro (_ | _)
      · rfl
      · exact hguard.symm
    rw [openedBytes, openedBytes, hreason, hreason]

theorem OpensAlike.eq_file (h : entry.OpensAlike) (hbytes : entry.openedBytes access = .ok bytes) :
    ∃ guard, entry = .file guard bytes ∧ ∀ access', guard.reason access' = none := by
  have hguard : ∀ access', ∃ guard, entry.Holds guard bytes ∧ guard.reason access' = none :=
    fun access' => openedBytes_eq_ok_iff.mp ((h.openedBytes_eq access' access).trans hbytes)
  obtain ⟨why, rfl⟩ | ⟨guard, bytes', rfl, -⟩ := h
  · cases hbytes
  · obtain ⟨_, hholds, -⟩ := hguard access
    obtain ⟨rfl, rfl⟩ := hholds.unique (Or.inl rfl)
    refine ⟨_, rfl, fun access' => ?_⟩
    obtain ⟨_, hholds', hopen⟩ := hguard access'
    obtain ⟨rfl, -⟩ := hholds'.unique (Or.inl rfl)
    exact hopen

end Entry
end EditOverlay
