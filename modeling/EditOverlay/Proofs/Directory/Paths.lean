import EditOverlay.Proofs.Directory.Files
import EditOverlay.Proofs.Store.Reads

/-! # Directories: where paths lead

A path that leads to a file leads to a name in a folder (`exists_folder_of_find?`): neither the root
nor the top is a file. A plain name leads to the file of that name in the root
(`Plain.find?_eq`). -/

namespace EditOverlay.Directory

variable {d : Directory} {here there place : Place} {name path : String} {ns : List String}

/-! ### Steps -/

theorem checkEnter_eq_ok_iff : d.checkEnter here = .ok () ↔ d.refusal? here .enter = none := by
  unfold checkEnter
  cases d.refusal? here .enter <;> simp

theorem step_eq_ok_iff : d.step here name = .ok there ↔
    (∃ guard, d.entryAt here = .folder guard) ∧ d.refusal? here .enter = none ∧
      checkName name = .ok () ∧ next here name = there := by
  unfold step
  cases d.entryAt here with
  | folder guard =>
    simp only [Entry.folder.injEq, exists_eq', true_and]
    rw [bind_eq_ok, ← checkEnter_eq_ok_iff]
    constructor
    · rintro ⟨u, henter, h⟩
      obtain ⟨u', hname, h⟩ := bind_eq_ok.mp h
      exact ⟨henter, hname, Except.ok.inj h⟩
    · rintro ⟨henter, hname, rfl⟩
      exact ⟨(), henter, bind_eq_ok.mpr ⟨(), hname, rfl⟩⟩
  | _ => simp

theorem head?_next (h : here.head? = some "/") (name : String) :
    (next here name).head? = some "/" := by
  obtain ⟨rest, rfl⟩ := List.head?_eq_some_iff.mp h
  unfold next above
  split_ifs with hidle hup htop haround
  · rfl
  · rfl
  · rfl
  · cases rest with
    | nil => exact absurd rfl htop
    | cons n rest => rfl
  · rfl

theorem head?_foldlM_step (h : here.head? = some "/") (hway : ns.foldlM d.step here = .ok there) :
    there.head? = some "/" := by
  induction ns generalizing here with
  | nil =>
    cases hway
    exact h
  | cons n ns ih =>
    rw [List.foldlM_cons] at hway
    obtain ⟨next, hstep, hrest⟩ := bind_eq_ok.mp hway
    obtain ⟨-, -, -, rfl⟩ := step_eq_ok_iff.mp hstep
    exact ih (head?_next h n) hrest

/-! ### Files -/

theorem resolve_eq_ok_iff : d.resolve path = .ok place ↔
    checkPath path = .ok () ∧ (way path).2.foldlM d.step (way path).1 = .ok place := by
  unfold resolve
  rw [bind_eq_ok]
  constructor
  · rintro ⟨u, hcheck, hway⟩
    exact ⟨hcheck, hway⟩
  · rintro ⟨hcheck, hway⟩
    exact ⟨(), hcheck, hway⟩

theorem way_cases (path : String) :
    (way path).1 = top ∨ (way path).1 = [] ∧ (way path).2 ≠ [] := by
  unfold way
  split
  · exact Or.inl rfl
  · refine Or.inr ⟨rfl, ?_⟩
    rw [names, ne_eq, List.map_eq_nil_iff]
    exact List.splitOn_ne_nil _ _

theorem exists_folder_of_find? {bytes : List UInt8} (h : d.find? path = some (place, bytes)) :
    ∃ folder name, place = folder ++ [name] := by
  obtain ⟨hplace, hbytes⟩ := find?_eq_some_iff.mp h
  obtain ⟨-, hway⟩ := resolve_eq_ok_iff.mp hplace
  have hne : place ≠ [] := by
    rintro rfl
    rcases way_cases path with htop | ⟨hroot, hnames⟩
    · rw [htop] at hway
      cases head?_foldlM_step rfl hway
    · -- the first step starts at the root, which is a folder then
      obtain ⟨n, ns, hcons⟩ := List.exists_cons_of_ne_nil hnames
      rw [hroot, hcons, List.foldlM_cons] at hway
      obtain ⟨next, hstep, -⟩ := bind_eq_ok.mp hway
      obtain ⟨⟨guard, hfolder⟩, -⟩ := step_eq_ok_iff.mp hstep
      rw [entryAt_of_bytesAt? hbytes] at hfolder
      cases hfolder
  exact ⟨place.dropLast, place.getLast hne, (List.dropLast_concat_getLast hne).symm⟩

/-! ### Plain names -/

theorem checkName_eq_ok_iff : checkName name = .ok () ↔ name.utf8ByteSize ≤ nameLimit := by
  unfold checkName
  split_ifs with hlong
  · simp only [false_iff]
    omega
  · simp only [true_iff]
    omega

/-- The name is a path to what has this name in the root. -/
structure Plain (name : String) : Prop where
  slash : '/' ∉ name.toList
  nul : '\x00' ∉ name.toList
  idle : isIdle name = false
  up : name ≠ ".."
  short : name.utf8ByteSize ≤ nameLimit

theorem plain_iff : Plain name ↔ '/' ∉ name.toList ∧ '\x00' ∉ name.toList ∧ isIdle name = false ∧
    name ≠ ".." ∧ name.utf8ByteSize ≤ nameLimit := by
  constructor
  · rintro ⟨hslash, hnul, hidle, hup, hshort⟩
    exact ⟨hslash, hnul, hidle, hup, hshort⟩
  · rintro ⟨hslash, hnul, hidle, hup, hshort⟩
    exact ⟨hslash, hnul, hidle, hup, hshort⟩

instance (name : String) : Decidable (Plain name) := decidable_of_iff _ plain_iff.symm

theorem Plain.names_eq (h : Plain name) : names name = [name] := by
  have hone : name.toList.splitOn '/' = [name.toList] := by
    refine List.splitOnP_eq_singleton fun c hc => ?_
    exact beq_eq_false_iff_ne.mpr fun hslash => h.slash (hslash ▸ hc)
  rw [names, hone, List.map_cons, List.map_nil, String.ofList_toList]

/-- The root can be entered: nothing is in its place, and the system does not keep it closed. -/
structure RootOpen (d : Directory) : Prop where
  root : d.bytesAt? [] = none
  enter : d.refusal? [] .enter = none

theorem checkPath_eq_ok (hnul : '\x00' ∉ path.toList) (hempty : path ≠ "")
    (hshort : path.utf8ByteSize ≤ pathLimit) : checkPath path = .ok () := by
  unfold checkPath
  rw [String.contains_char_eq, decide_eq_false hnul, if_neg Bool.false_ne_true,
    if_neg (by simpa using hempty), if_neg (by omega)]

theorem Plain.resolve_eq (h : Plain name) (hopen : d.RootOpen) : d.resolve name = .ok [name] := by
  have hnames := h.names_eq
  obtain ⟨-, hnul, hidle, hup, hshort⟩ := h
  have hempty : name ≠ "" := by
    rintro rfl
    cases hidle
  have hway : way name = ([], [name]) := by
    unfold way
    rw [hnames]
    split
    · rename_i hcons
      cases hcons
    · rfl
  refine resolve_eq_ok_iff.mpr ⟨checkPath_eq_ok hnul hempty ?_, ?_⟩
  · unfold nameLimit at hshort
    unfold pathLimit
    omega
  · have hfolder : d.entryAt [] = .folder (d.guardAt []) := by
      rw [entryAt, hopen.root]
      rfl
    have hname : checkName name = .ok () := checkName_eq_ok_iff.mpr hshort
    have hnext : next [] name = [name] := by
      rw [next, hidle, if_neg Bool.false_ne_true, if_neg hup, List.nil_append]
    rw [hway, List.foldlM_cons, step_eq_ok_iff.mpr ⟨⟨_, hfolder⟩, hopen.enter, hname, hnext⟩]
    rfl

/-- **A plain name leads to the file of this name.** -/
theorem Plain.find?_eq {bytes : List UInt8} (h : Plain name) (hopen : d.RootOpen)
    (hfile : d.bytesAt? [name] = some bytes) : d.find? name = some ([name], bytes) :=
  find?_eq_some_iff.mpr ⟨h.resolve_eq hopen, hfile⟩

/-! ### Backups -/

/-- A backup of the file at a path, which leads to the place, can be made: the file can be read, the
path and the name of the backup are not too long, and its place can be written. -/
structure TakesBackup (d : Directory) (time : Timestamp) (path : String) (place : Place) :
    Prop where
  readable : (d.guardAt place).reading = none
  path_ok : checkPath (backupPath time path) = .ok ()
  name_ok : checkName (backupName time ((names path).getLastD "")) = .ok ()
  writable : d.Writable (backupPlace time place)

theorem backupPlace_append (time : Timestamp) (folder : Place) (name : String) :
    backupPlace time (folder ++ [name]) = folder ++ [name ++ "." ++ time.text ++ ".bak"] := by
  rw [backupPlace, List.dropLast_concat, List.getLastD_concat]
  rfl

theorem checkBackup_eq_ok_iff {time : Timestamp} : checkBackup time path = .ok () ↔
    checkPath (backupPath time path) = .ok () ∧
      checkName (backupName time ((names path).getLastD "")) = .ok () := by
  unfold checkBackup
  rw [bind_eq_ok]
  constructor
  · rintro ⟨u, hpath, hname⟩
    exact ⟨mapError_eq_ok.mp hpath, mapError_eq_ok.mp hname⟩
  · rintro ⟨hpath, hname⟩
    exact ⟨(), mapError_eq_ok.mpr hpath, mapError_eq_ok.mpr hname⟩

theorem backUp_eq_ok_iff {time : Timestamp} {bytes : List UInt8} {copy : String × Directory}
    (h : d.find? path = some (place, bytes)) :
    d.backUp time path = .ok copy ↔ (d.guardAt place).reading = none ∧
      checkBackup time path = .ok () ∧ copy.1 = backupPath time path ∧
      d.tryPut (backupPlace time place) bytes = .ok copy.2 := by
  unfold backUp
  rw [h]
  simp only
  constructor
  · intro hcopy
    obtain ⟨hread, hcopy⟩ := heed_bind_eq_ok_iff.mp hcopy
    obtain ⟨u, hcheck, hcopy⟩ := bind_eq_ok.mp hcopy
    obtain ⟨copied, hput, hcopy⟩ := bind_eq_ok.mp hcopy
    cases hcopy
    exact ⟨hread, hcheck, rfl, hput⟩
  · obtain ⟨copyPath, copied⟩ := copy
    rintro ⟨hread, hcheck, rfl, hput⟩
    refine heed_bind_eq_ok_iff.mpr ⟨hread, bind_eq_ok.mpr ⟨(), hcheck, ?_⟩⟩
    exact bind_eq_ok.mpr ⟨copied, hput, rfl⟩

theorem exists_find?_of_backUp {time : Timestamp} {copy : String × Directory}
    (h : d.backUp time path = .ok copy) : ∃ place bytes, d.find? path = some (place, bytes) := by
  unfold backUp at h
  cases hfind : d.find? path with
  | none =>
    rw [hfind] at h
    cases h
  | some file => exact ⟨file.1, file.2, rfl⟩

/-- **A backup of a file is made** if and only if the tree takes it. -/
theorem exists_backUp_iff {time : Timestamp} {bytes : List UInt8}
    (h : d.find? path = some (place, bytes)) :
    (∃ copy, d.backUp time path = .ok copy) ↔ d.TakesBackup time path place := by
  constructor
  · rintro ⟨copy, hcopy⟩
    obtain ⟨hread, hcheck, -, hput⟩ := (backUp_eq_ok_iff h).mp hcopy
    obtain ⟨hpath, hname⟩ := checkBackup_eq_ok_iff.mp hcheck
    exact ⟨hread, hpath, hname, exists_tryPut_iff.mp ⟨_, hput⟩⟩
  · rintro ⟨hread, hpath, hname, hwritable⟩
    obtain ⟨copied, hput⟩ := exists_tryPut_iff.mpr hwritable
    exact ⟨(backupPath time path, copied), (backUp_eq_ok_iff h).mpr
      ⟨hread, checkBackup_eq_ok_iff.mpr ⟨hpath, hname⟩, rfl, hput⟩⟩

end EditOverlay.Directory
