import EditOverlay.Proofs.Editor.Edits

/-! # Editors: files

A file that was opened to be written takes every run that is valid (`FileStore.storeAfter_eq`). The
runs of an editor are, so a save of a file never fails, and what it leaves in the file is what the
editor has shown (`Editor.Sound.save_file`).

After edits and undos that is a patch of the bytes by the edits that are left
(`Editor.save_undoMany`). -/

namespace EditOverlay

namespace FileStore

variable {f : FileStore} {runs : RunList}

/-- The file with runs written over its bytes, one after the other. -/
def patched (f : FileStore) (runs : RunList) : FileStore :=
  { f with bytes := Codec.patch f.width f.bytes runs }

theorem patched_cons (f : FileStore) (r : Run) (runs : RunList) :
    f.patched (r :: runs) = (f.patched [r]).patched runs := rfl

theorem write_of_within (haccess : f.access = .readWrite) {r : Run}
    (hr : r.Within f.width.Fits f.length) :
    Store.write f r.start r.values = (f.patched [r], .ok ()) := by
  have hcheck : checkWrite f.width f.length r.start r.values = .ok () :=
    checkWrite_eq_ok_iff.mpr hr
  rw [write_eq_settle, tryWrite_of_readWrite haccess, hcheck]
  rfl

theorem length_patched (hruns : ∀ r ∈ runs, r.Within f.width.Fits f.length) :
    (f.patched runs).length = f.length := by
  obtain ⟨-, -, hbytes⟩ := Codec.patch_of_within hruns
  exact congrArg (· / f.width.byteCount) hbytes

theorem storeAfter_eq (haccess : f.access = .readWrite)
    (hruns : ∀ r ∈ runs, r.Within f.width.Fits f.length) :
    Overlay.storeAfter f runs = f.patched runs ∧
      ∀ i < runs.length, Overlay.writeOutcome f runs i = some (.ok ()) := by
  induction runs generalizing f with
  | nil => exact ⟨rfl, fun i hi => absurd hi (Nat.not_lt_zero i)⟩
  | cons r runs ih =>
    obtain ⟨hr, hothers⟩ := List.forall_mem_cons.mp hruns
    have hwrite := write_of_within haccess hr
    -- the file has kept its length, so that the other runs are valid in it as well
    have hlength : (f.patched [r]).length = f.length :=
      length_patched fun s hs => List.mem_singleton.mp hs ▸ hr
    obtain ⟨hstore, hok⟩ := ih (f := f.patched [r]) haccess (by rw [hlength]; exact hothers)
    refine ⟨?_, fun i hi => ?_⟩
    · rw [Overlay.storeAfter_cons, hwrite, hstore, ← patched_cons]
    · cases i with
      | zero => rw [Overlay.writeOutcome_zero, hwrite]
      | succ i =>
        rw [Overlay.writeOutcome_succ, hwrite]
        exact hok i (by rw [List.length_cons] at hi; omega)

end FileStore

namespace Editor

open RunList

variable {f : FileStore} {e : Editor FileStore} {edits : List Run}

theorem sound_file (f : FileStore) (limit : Nat) :
    (withLimit f limit).Sound (fun _ => True) FileStore.elements :=
  sound_withLimit FileStore.lawful trivial limit

/-- **A save of a file never fails.** The runs are written over the bytes of the file, and the
elements of the bytes are then what the editor has shown. -/
theorem Sound.save_file (h : Sound (fun _ => True) FileStore.elements e)
    (haccess : e.store.access = .readWrite) :
    e.save.2 = .ok ⟨e.overlay.runs.length, (e.overlay.runs.map Run.length).sum⟩ ∧
      e.save.1.store = e.store.patched e.overlay.runs ∧
      (e.store.patched e.overlay.runs).elements = shown FileStore.elements e ∧
      Codec.rest e.store.width (e.store.patched e.overlay.runs).bytes =
        Codec.rest e.store.width e.store.bytes := by
  have hwidth : e.store.width = e.overlay.width := h.width_eq
  have hlength : e.overlay.length = e.store.length := by
    rw [h.length_eq, FileStore.length_eq_length_elements]
  have hruns : ∀ r ∈ e.overlay.runs, r.Within e.store.width.Fits e.store.length := by
    rw [hwidth, ← hlength]
    exact h.overlay.runs_within
  obtain ⟨hwritten, hok⟩ := FileStore.storeAfter_eq haccess hruns
  obtain ⟨hstore, hoverlay, hresult⟩ := h.overlay.commit_of_forall_ok h.width_eq hok
  have hsaved : e.save.1.store = e.store.patched e.overlay.runs := hstore.trans hwritten
  obtain ⟨-, hshown, -⟩ := h.save_cases FileStore.lawful
  refine ⟨hresult, hsaved, ?_, (Codec.patch_of_within hruns).2.1⟩
  -- no runs are left, so what is shown comes from the file alone
  have hempty : e.save.1.overlay.runs = [] := congrArg Overlay.runs hoverlay
  rw [← hshown, shown, hempty, overlaid_nil, hsaved]

/-- **The file after edits, undos and a save** has the bytes that it had, with the edits that are
left over them. The report counts the positions of all edits, and the blocks that these make. -/
theorem save_undoMany (haccess : f.access = .readWrite) {limit : Nat}
    (hne : ∀ r ∈ edits, r.values ≠ []) (hall : (withLimit f limit).changeAll edits = .ok e)
    (u : Nat) :
    (e.undoMany u).save.2 = .ok ⟨blockCount (positions edits), (positions edits).card⟩ ∧
      (e.undoMany u).save.1.store =
        f.patched (edits.take (edits.length - min u (min limit edits.length))) := by
  obtain ⟨hsound, hstore, hshown, hpositions⟩ :=
    undoMany_changeAll FileStore.lawful trivial hne hall u
  have hcanonical := hsound.overlay.canonical
  obtain ⟨hresult, hsaved, helements, hrest⟩ := hsound.save_file (by rw [hstore]; exact haccess)
  rw [hstore] at hsaved helements hrest
  have hvalid : ∀ r ∈ edits, r.Within f.width.Fits (f.bytes.length / f.width.byteCount) :=
    ((sound_file f limit).exists_changeAll_iff FileStore.lawful).mp ⟨e, hall⟩
  obtain ⟨hkept, hkeptRest, -⟩ := Codec.patch_of_within (w := f.width) fun r hr =>
    hvalid r (List.mem_of_mem_take hr)
  refine ⟨?_, ?_⟩
  · rw [hresult, hcanonical.length_eq_blockCount, hcanonical.sum_length, hpositions]
  · have hbytes : (f.patched (e.undoMany u).overlay.runs).bytes =
        Codec.patch f.width f.bytes (edits.take _) :=
      Codec.eq_of_elements_eq (helements.trans (hshown.trans hkept.symm))
        (hrest.trans hkeptRest.symm)
    rw [hsaved, FileStore.patched, FileStore.patched]
    exact congrArg (FileStore.mk f.path f.width f.access) hbytes

end Editor
end EditOverlay
