import EditOverlay.Directory.Openings
import EditOverlay.Proofs.Codec.Patch
import EditOverlay.Proofs.Directory.Paths
import EditOverlay.Proofs.Store.Calls
import EditOverlay.Proofs.Store.Lawful

/-! # Directories: an open file is a store in memory

An `Opening` is an open file together with the directory that holds its bytes. It is a store: calls
read the bytes that the file has now, and what is written goes to the directory.

`Opening.Shows` relates an opening to a store in memory with the elements of the file. Every call
gives both the same answer and keeps the relation (`Shows.call`), so no caller can tell them apart
(`file_is_memory`). -/

namespace EditOverlay

/-- A file opened in a directory. -/
structure Opening where
  directory : Directory
  file : FileStore

namespace Opening

/-- The open file with the bytes that it has now. -/
def current (o : Opening) : FileStore := o.directory.refresh o.file

/-- Writes to the file and so to the directory. -/
def write (o : Opening) (offset : Nat) (values : List Nat) : Opening × Except EditError Unit :=
  let (file, result) := Store.write o.current offset values
  (⟨o.directory.save file, file⟩, result)

instance : Store Opening where
  width o := Store.width o.current
  length o := Store.length o.current
  read o := Store.read o.current
  write := write

end Opening

namespace Directory

variable {d : Directory} {place : Place} {bytes : List UInt8} {f : FileStore}

theorem cover_length (bytes : List UInt8) : cover bytes bytes.length = bytes := by
  rw [cover, List.take_length, Nat.sub_self, List.replicate_zero, List.append_nil]

theorem refresh_of_find? (h : d.find? f.path = some (place, f.bytes)) : d.refresh f = f := by
  unfold refresh
  rw [h]
  simp only [cover_length]

theorem save_of_find? (h : d.find? f.path = some (place, bytes))
    (hlength : f.bytes.length = bytes.length) : d.save f = d.put place f.bytes := by
  unfold save
  rw [h]
  simp only
  rw [← hlength, List.take_length, overwrite, Nat.zero_add, hlength, List.drop_length,
    List.take_zero, List.nil_append, List.append_nil]

theorem openFile_of_find? {path : String} {access : Access}
    (h : d.find? path = some (place, bytes)) (hopen : (d.guardAt place).reason access = none)
    (w : Width) : d.openFile path w access = .ok ⟨path, w, access, bytes⟩ := by
  have hopened : (d.entry path).openedBytes access = .ok bytes :=
    (holds_of_find? h).openedBytes_eq hopen
  rw [openFile, FileStore.ofEntry, hopened]
  rfl

end Directory

namespace Opening

variable {d : Directory} {place : Place} {f : FileStore} {o : Opening} {m : MemoryStore}

/-- The opening shows the elements of the store in memory. It was `f` when it was opened in the
directory `d`: since then nothing but the elements has changed. -/
structure Shows (d : Directory) (place : Place) (f : FileStore) (o : Opening) (m : MemoryStore) :
    Prop where
  writable : o.file.access = .readWrite
  path_eq : o.file.path = f.path
  width_eq : o.file.width = f.width
  memory_width : m.width = f.width
  found : o.directory.find? f.path = some (place, o.file.bytes)
  elements_eq : Codec.elements f.width o.file.bytes = m.elements
  rest_eq : Codec.rest f.width o.file.bytes = Codec.rest f.width f.bytes
  length_eq : o.file.bytes.length = f.bytes.length
  elsewhere : ∀ q, q ≠ place → o.directory.bytesAt? q = d.bytesAt? q
  refusals_eq : o.directory.refusals = d.refusals

/-- A write to a file that has its bytes of now is one to the file and then to the directory. -/
theorem write_eq (h : o.current = o.file) (offset : Nat) (values : List Nat) :
    Store.write o offset values =
      (⟨o.directory.save (Store.write o.file offset values).1,
        (Store.write o.file offset values).1⟩, (Store.write o.file offset values).2) := by
  rw [← h]
  rfl

theorem shows_openFile {path : String} {bytes : List UInt8}
    (h : d.find? path = some (place, bytes)) (w : Width) :
    Shows d place ⟨path, w, .readWrite, bytes⟩ ⟨d, ⟨path, w, .readWrite, bytes⟩⟩
      ⟨w, Codec.elements w bytes⟩ :=
  ⟨rfl, rfl, rfl, rfl, h, rfl, rfl, rfl, fun _ _ => rfl, rfl⟩

namespace Shows

theorem bytes_eq (h : Shows d place f o m) :
    o.file.bytes = Codec.encode f.width m.elements ++ Codec.rest f.width f.bytes := by
  rw [← h.elements_eq, ← h.rest_eq]
  exact (Codec.encode_elements_append_rest _ _).symm

theorem found_file (h : Shows d place f o m) :
    o.directory.find? o.file.path = some (place, o.file.bytes) := h.path_eq ▸ h.found

theorem current_eq (h : Shows d place f o m) : o.current = o.file :=
  Directory.refresh_of_find? h.found_file

theorem file_elements (h : Shows d place f o m) : o.file.elements = m.elements := by
  rw [← h.elements_eq, ← h.width_eq]
  rfl

theorem save (h : Shows d place f o m) {bytes : List UInt8} {elements : List Nat}
    (hlength : bytes.length = o.file.bytes.length)
    (helements : Codec.elements f.width bytes = elements)
    (hrest : Codec.rest f.width bytes = Codec.rest f.width o.file.bytes) :
    Shows d place f ⟨o.directory.save { o.file with bytes := bytes },
      { o.file with bytes := bytes }⟩ { m with elements := elements } := by
  have hsave : o.directory.save { o.file with bytes := bytes } = o.directory.put place bytes :=
    Directory.save_of_find? (f := { o.file with bytes := bytes }) h.found_file hlength
  rw [hsave]
  refine ⟨h.writable, h.path_eq, h.width_eq, h.memory_width, Directory.find?_put h.found bytes,
    helements, hrest.trans h.rest_eq, hlength.trans h.length_eq, fun q hq => ?_, ?_⟩
  · rw [Directory.bytesAt?_put_of_ne hq, h.elsewhere q hq]
  · rw [Directory.refusals_put, h.refusals_eq]

theorem write (h : Shows d place f o m) (offset : Nat) (values : List Nat) :
    (Store.write o offset values).2 = (Store.write m offset values).2 ∧
      Shows d place f (Store.write o offset values).1 (Store.write m offset values).1 := by
  have hlength : o.file.length = m.elements.length := by
    rw [FileStore.length_eq_length_elements, h.file_elements]
  have hsame : checkWrite o.file.width o.file.length offset values =
      checkWrite m.width m.elements.length offset values := by
    rw [h.width_eq, h.memory_width, hlength]
  rw [write_eq h.current_eq, FileStore.write_eq_settle, MemoryStore.write_eq_settle,
    FileStore.tryWrite_of_readWrite h.writable, MemoryStore.tryWrite_eq, hsame]
  cases hcheck : checkWrite m.width m.elements.length offset values with
  | error e => exact ⟨rfl, h.save rfl h.elements_eq rfl⟩
  | ok u =>
    obtain ⟨hrange, hfits⟩ := checkWrite_eq_ok_iff.mp (hsame.trans hcheck)
    have hstop : Run.stop ⟨offset, values⟩ ≤ o.file.bytes.length / o.file.width.byteCount := hrange
    refine ⟨rfl, h.save (Codec.length_overwrite_encode hstop) ?_ ?_⟩
    · rw [← h.width_eq, Codec.elements_overwrite hstop hfits, ← h.file_elements]
      rfl
    · rw [← h.width_eq]
      exact Codec.rest_overwrite_encode hstop

/-- **A call gets the same answer from the file and from memory.** -/
theorem call (h : Shows d place f o m) (c : Store.Call) :
    (Store.call o c).2 = (Store.call m c).2 ∧
      Shows d place f (Store.call o c).1 (Store.call m c).1 := by
  cases c with
  | read offset count =>
    refine ⟨?_, h⟩
    have hread : Store.read o offset count = Store.read o.file offset count := by
      rw [← h.current_eq]
      rfl
    rw [Store.call, Store.call, hread, o.file.exact.read_eq, m.exact.read_eq, h.file_elements]
  | write offset values =>
    obtain ⟨hresult, hshows⟩ := h.write offset values
    exact ⟨congrArg (Except.map fun _ => []) hresult, hshows⟩

theorem getElem?_write (h : Shows d place f o m) {offset i : Nat} {values : List Nat}
    (hi : i < offset * f.width.byteCount ∨ (offset + values.length) * f.width.byteCount ≤ i) :
    (Store.write o offset values).1.file.bytes[i]? = o.file.bytes[i]? := by
  rw [write_eq h.current_eq]
  refine Store.write_induction (P := fun f => f.bytes[i]? = o.file.bytes[i]?) o.file offset values
    (fun f' hwrite => ?_) fun f' e hwrite => ?_
  · obtain ⟨-, hrange, -, rfl⟩ := FileStore.write_eq_ok hwrite
    have hstop : Run.stop ⟨offset, values⟩ ≤ o.file.bytes.length / o.file.width.byteCount := hrange
    rw [← h.width_eq, Nat.add_mul, ← Codec.length_encode] at hi
    rw [getElem?_overwrite (Codec.stop_le_length hstop), if_neg (by simp only; omega)]
  · rw [FileStore.write_eq_error hwrite]

end Shows

/-- **A file that refuses every write** gives its elements to be read and stays as it is. -/
theorem answers_of_refused {reason : String}
    (hrefused : ∀ offset values,
      Store.write o.file offset values = (o.file, .error (.writeFailed offset reason)))
    (hfound : o.directory.find? o.file.path = some (place, o.file.bytes))
    (calls : List Store.Call) :
    Store.answers o calls = calls.map (Store.readOnlyAnswer o.file reason) ∧
      ∀ q, (Store.after o calls).directory.bytesAt? q = o.directory.bytesAt? q := by
  induction calls generalizing o with
  | nil => exact ⟨rfl, fun q => rfl⟩
  | cons c calls ih =>
    have hcurrent : o.current = o.file := Directory.refresh_of_find? hfound
    rw [Store.answers, Store.after_cons, List.map_cons]
    cases c with
    | read offset count =>
      obtain ⟨hanswers, hkept⟩ := ih hrefused hfound
      refine ⟨congrArg₂ List.cons ?_ hanswers, hkept⟩
      rw [Store.readOnlyAnswer, ← hcurrent]
      rfl
    | write offset values =>
      have hwrite : Store.write o offset values =
          (⟨o.directory.put place o.file.bytes, o.file⟩, .error (.writeFailed offset reason)) := by
        rw [write_eq hcurrent, hrefused, Directory.save_of_find? hfound rfl]
      obtain ⟨hanswers, hkept⟩ := ih (o := ⟨o.directory.put place o.file.bytes, o.file⟩) hrefused
        (Directory.find?_put hfound o.file.bytes)
      rw [Store.call, hwrite]
      refine ⟨congrArg₂ List.cons rfl hanswers, fun q => ?_⟩
      -- writing back the bytes that are there changes nothing
      rw [hkept q, Directory.bytesAt?_put]
      split_ifs with hq
      · rw [hq, (Directory.find?_eq_some_iff.mp hfound).2]
      · rfl

/-! ### All together -/

/-- **An open file is a store in memory, seen through the codec.** Take a file that may be opened
to be read and written, opened so, and in memory the whole elements of its bytes. Whatever the
calls, both give the same answers, and after them

* the file has the bytes of the elements in memory and, behind them, the bytes that made no whole
  element before; it has kept its length, and the other files have kept their bytes;
* one more write changes no bytes but those of its own elements;
* opened to be read only, if it may be, the file gives the same elements, refuses every write, and
  all files keep their bytes;
* opened again in any width and in any way in which it may be, it holds the whole elements of its
  bytes. -/
theorem file_is_memory {path : String} {bytes : List UInt8}
    (hfile : d.find? path = some (place, bytes))
    (hopen : (d.guardAt place).reason .readWrite = none) (w : Width) (calls : List Store.Call) :
    ∃ file m, d.openFile path w .readWrite = .ok file ∧
      MemoryStore.ofList w (Codec.elements w bytes) = .ok m ∧
      let o : Opening := ⟨d, file⟩
      let d' := (Store.after o calls).directory
      let m' := Store.after m calls
      let bytes' :=
        Codec.encode w m'.elements ++ bytes.drop (bytes.length - bytes.length % w.byteCount)
      Store.answers o calls = Store.answers m calls ∧
      d'.find? path = some (place, bytes') ∧ bytes'.length = bytes.length ∧
      (∀ q, q ≠ place → d'.bytesAt? q = d.bytesAt? q) ∧
      (∀ offset values, ∃ bytes'',
        (Store.write (Store.after o calls) offset values).1.directory.find? path =
          some (place, bytes'') ∧
        ∀ i, i < offset * w.byteCount ∨ (offset + values.length) * w.byteCount ≤ i →
          bytes''[i]? = bytes'[i]?) ∧
      ((d.guardAt place).reason .readOnly = none →
        ∃ reader reason, d'.openFile path w .readOnly = .ok reader ∧
        ∀ later, let r : Opening := ⟨d', reader⟩
          Store.answers r later = later.map (Store.readOnlyAnswer m' reason) ∧
          ∀ q, (Store.after r later).directory.bytesAt? q = d'.bytesAt? q) ∧
      ∀ w' access, (d.guardAt place).reason access = none →
        ∃ again, d'.openFile path w' access = .ok again ∧ Store.width again = w' ∧
        Store.length again = bytes.length / w'.byteCount ∧
        Store.Exact again (Codec.elements w' bytes') := by
  have hfits : MemoryStore.ofList w (Codec.elements w bytes) = .ok ⟨w, Codec.elements w bytes⟩ := by
    have hcheck := Width.checkAll_eq_ok_iff.mpr fun v (hv : v ∈ Codec.elements w bytes) =>
      Codec.fits_of_mem_elements hv
    rw [MemoryStore.ofList, hcheck]
    rfl
  refine ⟨_, _, Directory.openFile_of_find? hfile hopen w, hfits, ?_⟩
  intro o d' m' bytes'
  obtain ⟨hanswers, hshows⟩ := Store.answers_eq_of_step (fun c h => Shows.call h c)
    (shows_openFile hfile w) calls
  have hbytes : (Store.after o calls).file.bytes = bytes' := hshows.bytes_eq
  have hfound : d'.find? path = some (place, bytes') := hbytes ▸ hshows.found
  have hlength : bytes'.length = bytes.length := hbytes ▸ hshows.length_eq
  have hguard : d'.guardAt place = d.guardAt place := Directory.guardAt_congr hshows.refusals_eq _
  refine ⟨hanswers, hfound, hlength, hshows.elsewhere, fun offset values => ?_, fun hread => ?_,
    fun w' access hagain => ?_⟩
  · refine ⟨_, (hshows.write offset values).2.found, fun i hi => ?_⟩
    rw [← hbytes, hshows.getElem?_write hi]
  · obtain ⟨reason, hrefused⟩ :=
      FileStore.exists_write_of_readOnly (f := ⟨path, w, .readOnly, bytes'⟩) rfl
    refine ⟨_, reason, Directory.openFile_of_find? hfound (hguard ▸ hread) w, fun later => ?_⟩
    obtain ⟨hreads, hkept⟩ := answers_of_refused (o := ⟨d', ⟨path, w, .readOnly, bytes'⟩⟩)
      hrefused hfound later
    refine ⟨?_, hkept⟩
    have helements : Codec.elements w bytes' = m'.elements := hbytes ▸ hshows.elements_eq
    rw [hreads]
    refine List.map_congr_left fun c _ => ?_
    cases c with
    | read offset count =>
      rw [Store.readOnlyAnswer, Store.readOnlyAnswer, FileStore.exact _ |>.read_eq,
        m'.exact.read_eq, ← helements]
      rfl
    | write offset values => rfl
  · refine ⟨_, Directory.openFile_of_find? hfound (hguard ▸ hagain) w', rfl, ?_,
      FileStore.exact _⟩
    exact congrArg (· / w'.byteCount) hlength

/-- Four calls of a file of two elements and a byte. The last two are refused, as they are in
memory, and the byte behind the elements stays. -/
theorem file_is_memory_odd_file :
    let d : Directory :=
      { files := [(["a.bin"], [1, 0, 2, 0, 255]), (["b.bin"], [7])], folders := [] }
    let calls : List Store.Call :=
      [.write 1 [258], .read 0 2, .write 1 [1, 2], .write 0 [65536]]
    d.find? "a.bin" = some (["a.bin"], [1, 0, 2, 0, 255]) ∧
      ∃ file, d.openFile "a.bin" .w16 .readWrite = .ok file ∧
        Store.answers (⟨d, file⟩ : Opening) calls = [.ok [], .ok [1, 258],
          .error (.rangeOverflow 1 2 2), .error (.valueTooWide 65536 16)] ∧
        (Store.after (⟨d, file⟩ : Opening) calls).directory.find? "a.bin" =
          some (["a.bin"], [1, 0, 2, 1, 255]) := by
  intro d calls
  have hplain : Directory.Plain "a.bin" := by decide
  have hfile : d.find? "a.bin" = some (["a.bin"], [1, 0, 2, 0, 255]) :=
    hplain.find?_eq ⟨by decide, by decide⟩ (by decide)
  obtain ⟨file, m, hopen, hm, hanswers, hfound, -⟩ :=
    file_is_memory hfile (by decide) .w16 calls
  have hmemory : m = ⟨.w16, [1, 2]⟩ := by
    have hcheck : MemoryStore.ofList .w16 (Codec.elements .w16 [1, 0, 2, 0, 255]) =
        .ok ⟨.w16, [1, 2]⟩ := by decide
    exact Except.ok.inj (hm.symm.trans hcheck)
  rw [hmemory] at hanswers hfound
  exact ⟨hfile, file, hopen, hanswers.trans (by decide), hfound.trans (by decide)⟩

end Opening
end EditOverlay
