import EditOverlay.Proofs.Store.Calls
import EditOverlay.Proofs.Store.File
import EditOverlay.Proofs.Word.Call

/-! # Stores: files in memory

An open file is mapped to memory as a whole; only a file without bytes is not. What can be addressed
is fixed when the file is opened, and later calls rely on it: they scale elements to bytes in
machine words, take slices of the mapped bytes, and take it for granted that there is a mapping
where there are elements. In `MappedFile` all this is explicit: a call has no value where a product
or a sum is too large, a slice is not inside, elements cannot be decoded, or the mapping to write to
is not there. None of it happens: through all calls the answers are those of the file
(`MappedFile.answers?_eq`). -/

namespace EditOverlay

/-- The bytes that a file is mapped to, and whether they may be written. -/
structure Mapping where
  bytes : List UInt8
  writable : Bool
  deriving DecidableEq, Repr

/-- The mapping with other bytes in the place of those from `lo` up to `hi`, which has to be inside
and to have their number. -/
def Mapping.put? (m : Mapping) (lo hi : Nat) (bytes : List UInt8) : Option Mapping := do
  let target ← Word.slice? m.bytes lo hi
  let count ← Word.sub? hi lo
  if m.writable ∧ target.length = bytes.length ∧ count = bytes.length then
    return { m with bytes := overwrite m.bytes lo bytes }
  else none

/-- An open file with its mapping. Width, number of elements and access are kept since it was
opened. -/
structure MappedFile where
  width : Width
  length : Nat
  writable : Bool
  mapping : Option Mapping
  deriving DecidableEq, Repr

namespace MappedFile

/-- A file when it is opened. -/
def ofFile (f : FileStore) : MappedFile where
  width := f.width
  length := f.bytes.length / f.width.byteCount
  writable := f.access == .readWrite
  mapping := if f.bytes.isEmpty then none else some ⟨f.bytes, f.access == .readWrite⟩

/-- Where the bytes of elements start and stop. -/
def byteRange? (m : MappedFile) (offset count : Nat) : Option (Nat × Nat) := do
  let start ← Word.mul? offset m.width.byteCount
  let stop ← Word.mul? (← Word.add? offset count) m.width.byteCount
  return (start, stop)

/-- Reads elements. -/
def read? (m : MappedFile) (offset count : Nat) : Word.Call (List Nat) := do
  let _ ← Word.checkRange offset count m.length
  match m.mapping with
  | none => return []
  | some mapping => do
    let range ← m.byteRange? offset count
    let bytes ← Word.slice? mapping.bytes range.1 range.2
    (Codec.decode m.width bytes count).toOption

/-- Writes elements. -/
def write? (m : MappedFile) (offset : Nat) (values : List Nat) : Word.Call MappedFile :=
  if m.writable then do
    let _ ← Word.checkRange offset values.length m.length
    m.width.checkAll values
    if values.isEmpty then return m
    let range ← m.byteRange? offset values.length
    let mapping ← m.mapping
    let mapping' ← mapping.put? range.1 range.2 (Codec.encode m.width values)
    return { m with mapping := some mapping' }
  else throw (.writeFailed offset "文件以只读方式打开")

/-- The file after a call, and its answer. -/
def call? (m : MappedFile) : Store.Call → Option (MappedFile × Except EditError (List Nat))
  | .read offset count => do return (m, ← (m.read? offset count).run)
  | .write offset values => do
    match ← (m.write? offset values).run with
    | .ok m' => return (m', .ok [])
    | .error e => return (m, .error e)

/-- The answers to calls, in their order. -/
def answers? (m : MappedFile) : List Store.Call → Option (List (Except EditError (List Nat)))
  | [] => some []
  | c :: calls => do
    let result ← m.call? c
    return result.2 :: (← result.1.answers? calls)

/-! ### Nothing goes wrong -/

open Word.Call

variable {f : FileStore} {offset count : Nat}

theorem length_le_max (h : f.bytes.length ≤ Word.max) : f.length ≤ Word.max :=
  (Nat.div_le_self _ _).trans h

theorem stop_le_length (h : offset + count ≤ f.length) :
    offset * f.width.byteCount + count * f.width.byteCount ≤ f.bytes.length := by
  rw [← Nat.add_mul]
  exact (Nat.le_div_iff_mul_le f.width.byteCount_pos).mp h

theorem byteRange?_eq (h : f.bytes.length ≤ Word.max) (hrange : offset + count ≤ f.length) :
    (ofFile f).byteRange? offset count = some (offset * f.width.byteCount,
      offset * f.width.byteCount + count * f.width.byteCount) := by
  have hstop := stop_le_length hrange
  have hstart : Word.mul? offset f.width.byteCount = some (offset * f.width.byteCount) :=
    Word.mul?_of_le (by omega)
  have hadd : Word.add? offset count = some (offset + count) :=
    Word.add?_of_le (hrange.trans (length_le_max h))
  have hmul : Word.mul? (offset + count) f.width.byteCount =
      some ((offset + count) * f.width.byteCount) :=
    Word.mul?_of_le (by rw [Nat.add_mul]; omega)
  unfold byteRange?
  simp only [ofFile, hstart, hadd, hmul, Option.bind_eq_bind, Option.bind_some, Option.pure_def,
    Nat.add_mul]

theorem gives_read? (h : f.bytes.length ≤ Word.max) (offset count : Nat) :
    Gives ((ofFile f).read? offset count) (f.read offset count) := by
  unfold read? FileStore.read
  rw [show (ofFile f).length = f.length from rfl, Word.checkRange_eq (length_le_max h)]
  refine (gives_checked _).bind fun stop hchecked => ?_
  have hrange := (checkRange_eq_ok_iff.mp hchecked).1
  by_cases hempty : f.bytes.isEmpty = true
  · -- of a file without bytes no element is asked for
    have hcount : count = 0 := by
      have hlength : f.length = 0 := by
        rw [FileStore.length, List.isEmpty_iff.mp hempty, List.length_nil, Nat.zero_div]
      omega
    simp only [ofFile, hempty, if_true, hcount]
    exact gives_pure []
  · have hslice : Word.slice? f.bytes (offset * f.width.byteCount)
        (offset * f.width.byteCount + count * f.width.byteCount) =
        some ((f.bytes.drop (offset * f.width.byteCount)).take (count * f.width.byteCount)) := by
      rw [Word.slice?_of_le (Nat.le_add_right _ _) (stop_le_length hrange), List.drop_take,
        Nat.add_sub_cancel_left]
    have hmapping : (ofFile f).mapping = some ⟨f.bytes, f.access == .readWrite⟩ := if_neg hempty
    have hdecode := FileStore.decode_slice hrange
    rw [hmapping]
    refine Gives.word_bind (byteRange?_eq h hrange) (Gives.word_bind hslice ?_)
    rw [hdecode]
    exact gives_word (congrArg Except.toOption hdecode)

theorem put?_eq {lo hi : Nat} {bytes : List UInt8} {m : Mapping} (hwritable : m.writable = true)
    (hlo : lo + bytes.length = hi) (hhi : hi ≤ m.bytes.length) :
    m.put? lo hi bytes = some { m with bytes := overwrite m.bytes lo bytes } := by
  have hslice : Word.slice? m.bytes lo hi = some ((m.bytes.take hi).drop lo) :=
    Word.slice?_of_le (by omega) hhi
  have hlength : ((m.bytes.take hi).drop lo).length = bytes.length := by
    rw [List.length_drop, List.length_take]
    omega
  unfold Mapping.put?
  rw [hslice, Word.sub?_of_le (by omega)]
  exact if_pos ⟨hwritable, hlength, by omega⟩

theorem mapping_of_lt (h : 0 < f.length) :
    (ofFile f).mapping = some ⟨f.bytes, f.access == .readWrite⟩ := by
  refine if_neg fun hempty => ?_
  rw [FileStore.length, List.isEmpty_iff.mp hempty, List.length_nil, Nat.zero_div] at h
  exact Nat.lt_irrefl 0 h

theorem ofFile_overwrite {lo : Nat} {bytes : List UInt8} (h : 0 < f.length)
    (hinside : lo + bytes.length ≤ f.bytes.length) :
    ofFile { f with bytes := overwrite f.bytes lo bytes } =
      { ofFile f with mapping := some ⟨overwrite f.bytes lo bytes, f.access == .readWrite⟩ } := by
  have hlength : FileStore.length { f with bytes := overwrite f.bytes lo bytes } = f.length :=
    congrArg (· / f.width.byteCount) (length_overwrite hinside)
  have hmapping := mapping_of_lt (hlength.symm ▸ h)
  unfold FileStore.length at hlength
  unfold ofFile at hmapping ⊢
  simp only [hlength] at hmapping ⊢
  rw [hmapping]

theorem gives_write? (h : f.bytes.length ≤ Word.max) (offset : Nat) (values : List Nat) :
    Gives ((ofFile f).write? offset values) ((f.tryWrite offset values).map ofFile) := by
  cases haccess : f.access with
  | readOnly =>
    have hwritable : (ofFile f).writable = false := by simp [ofFile, haccess]
    unfold write? FileStore.tryWrite
    rw [haccess, hwritable]
    exact gives_throw _
  | readWrite =>
    have hwritable : (ofFile f).writable = true := by simp [ofFile, haccess]
    let written : FileStore := { f with
      bytes := overwrite f.bytes (offset * f.width.byteCount) (Codec.encode f.width values) }
    have htried : (f.tryWrite offset values).map ofFile = do
        let _ ← checkRange offset values.length f.length
        f.width.checkAll values
        return ofFile written := by
      rw [FileStore.tryWrite_of_readWrite haccess, checkWrite]
      cases checkRange offset values.length f.length with
      | error e => rfl
      | ok stop => cases f.width.checkAll values <;> rfl
    unfold write?
    rw [htried, if_pos hwritable, show (ofFile f).length = f.length from rfl,
      Word.checkRange_eq (length_le_max h)]
    refine (gives_checked _).bind fun stop hchecked => (gives_checked _).bind fun u _ => ?_
    have hrange := (checkRange_eq_ok_iff.mp hchecked).1
    split_ifs with hempty
    · have hsame : written = f := by
        rw [List.isEmpty_iff] at hempty
        simp only [written, hempty, Codec.encode, List.flatMap_nil, overwrite_nil]
      rw [hsame]
      exact gives_pure _
    · have hsome : 0 < values.length := List.length_pos_iff.mpr fun hnil => hempty (by simp [hnil])
      have hlength : (Codec.encode f.width values).length = values.length * f.width.byteCount :=
        Codec.length_encode f.width values
      have hinside : offset * f.width.byteCount + (Codec.encode f.width values).length ≤
          f.bytes.length := by
        rw [hlength]
        exact stop_le_length hrange
      have hmapping := mapping_of_lt (f := f) (by omega)
      rw [haccess] at hmapping
      refine Gives.word_bind (byteRange?_eq h hrange) (Gives.word_bind hmapping
        (Gives.word_bind (put?_eq rfl (by rw [← hlength]; rfl) (by rwa [← hlength])) ?_))
      rw [ofFile_overwrite (by omega) hinside, haccess]
      exact gives_pure _

/-! ### All calls -/

/-- **A call goes wrong nowhere,** and its answer is that of the file. -/
theorem call?_eq (h : f.bytes.length ≤ Word.max) (c : Store.Call) :
    (ofFile f).call? c = some (ofFile (Store.call f c).1, (Store.call f c).2) := by
  cases c with
  | read offset count =>
    have hread : ((ofFile f).read? offset count).run = some (f.read offset count) :=
      gives_read? h offset count
    simp only [call?, hread]
    rfl
  | write offset values =>
    have hwrite : ((ofFile f).write? offset values).run =
        some ((f.tryWrite offset values).map ofFile) := gives_write? h offset values
    simp only [call?, hwrite, Store.call, FileStore.write_eq_settle]
    cases f.tryWrite offset values <;> rfl

theorem length_bytes_call (f : FileStore) (c : Store.Call) :
    (Store.call f c).1.bytes.length = f.bytes.length := by
  cases c with
  | read offset count => rfl
  | write offset values =>
    rcases hwrite : Store.write f offset values with ⟨f', e | u⟩
    · have hsame := FileStore.write_eq_error hwrite
      simp only [Store.call, hwrite, hsame]
    · obtain ⟨-, hrange, -, rfl⟩ := FileStore.write_eq_ok hwrite
      simp only [Store.call, hwrite]
      have hstop := stop_le_length hrange
      exact length_overwrite (by rwa [Codec.length_encode])

/-- **Through all calls the answers are those of the file.** -/
theorem answers?_eq (h : f.bytes.length ≤ Word.max) (calls : List Store.Call) :
    (ofFile f).answers? calls = some (Store.answers f calls) := by
  induction calls generalizing f with
  | nil => rfl
  | cons c calls ih =>
    have hrest := ih (f := (Store.call f c).1) (by rwa [length_bytes_call])
    simp only [answers?, Store.answers, call?_eq h, hrest, Option.bind_eq_bind, Option.bind_some,
      Option.pure_def]

end MappedFile

end EditOverlay
