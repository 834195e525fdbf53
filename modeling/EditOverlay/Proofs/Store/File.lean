import EditOverlay.Proofs.Codec.Elements
import EditOverlay.Proofs.Store.Writes
import EditOverlay.Store.File

/-! # Stores: files hold elements

A file holds the elements of its bytes (`FileStore.elements`). Reads give them exactly, and a write
that succeeds stores elements exactly, so a file is a list of elements like a store in memory. A
file that is only read refuses every write. -/

namespace EditOverlay.FileStore

/-- The elements of a file; bytes at the end that make no whole element do not count. -/
def elements (f : FileStore) : List Nat := Codec.elements f.width f.bytes

theorem length_eq_length_elements (f : FileStore) : f.length = f.elements.length :=
  (Codec.length_elements f.width f.bytes).symm

theorem fits_of_mem_elements {f : FileStore} {v : Nat} (hv : v ∈ f.elements) : f.width.Fits v :=
  Codec.fits_of_mem_elements hv

theorem decode_slice {f : FileStore} {offset count : Nat} (h : offset + count ≤ f.length) :
    Codec.decode f.width
        ((f.bytes.drop (offset * f.width.byteCount)).take (count * f.width.byteCount)) count =
      .ok ((f.elements.take (offset + count)).drop offset) := by
  have hbytes : (offset + count) * f.width.byteCount ≤ f.bytes.length :=
    (Nat.le_div_iff_mul_le f.width.byteCount_pos).mp h
  rw [Nat.add_mul] at hbytes
  rw [Codec.decode_eq, if_pos, Codec.elements_take, Codec.elements_drop, List.take_take,
    Nat.min_self, List.drop_take, Nat.add_sub_cancel_left]
  · rfl
  · rw [List.length_take, List.length_drop]
    omega

theorem exact (f : FileStore) : Store.Exact f f.elements where
  length_eq := f.length_eq_length_elements
  read_eq offset count := by
    change f.read offset count = _
    unfold read checkRange
    rw [← length_eq_length_elements]
    split_ifs with h
    · exact decode_slice h
    · rfl

theorem write_eq_settle (f : FileStore) (offset : Nat) (values : List Nat) :
    Store.write f offset values = Store.settle f (f.tryWrite offset values) := by
  change f.write offset values = _
  unfold write
  cases f.tryWrite offset values <;> rfl

/-- A file that may be written refuses what a store in memory with its elements refuses. -/
theorem tryWrite_of_readWrite {f : FileStore} (h : f.access = .readWrite) (offset : Nat)
    (values : List Nat) :
    f.tryWrite offset values = (checkWrite f.width f.length offset values).map fun _ =>
      { f with
        bytes :=
          overwrite f.bytes (offset * f.width.byteCount) (Codec.encode f.width values) } := by
  unfold tryWrite checkWrite
  rw [h]
  cases checkRange offset values.length f.length with
  | error e => rfl
  | ok stop =>
    cases f.width.checkAll values <;> rfl

theorem exists_write_of_readOnly {f : FileStore} (h : f.access = .readOnly) :
    ∃ reason, ∀ offset values,
      Store.write f offset values = (f, .error (.writeFailed offset reason)) := by
  refine ⟨"文件以只读方式打开", fun offset values => ?_⟩
  rw [write_eq_settle, tryWrite, h]
  rfl

theorem write_eq_ok {f f' : FileStore} {offset : Nat} {values : List Nat}
    (h : Store.write f offset values = (f', .ok ())) :
    f.access = .readWrite ∧ offset + values.length ≤ f.length ∧ (∀ v ∈ values, f.width.Fits v) ∧
      f' = { f with
        bytes :=
          overwrite f.bytes (offset * f.width.byteCount) (Codec.encode f.width values) } := by
  rw [write_eq_settle] at h
  have htry : f.tryWrite offset values = .ok f' := Store.eq_ok_of_settle h
  cases haccess : f.access with
  | readOnly =>
    rw [tryWrite, haccess] at htry
    cases htry
  | readWrite =>
    rw [tryWrite_of_readWrite haccess] at htry
    obtain ⟨u, hcheck, rfl⟩ := map_eq_ok.mp htry
    obtain ⟨hrange, hfits⟩ := checkWrite_eq_ok_iff.mp hcheck
    exact ⟨rfl, hrange, hfits, by rw [haccess]⟩

theorem write_eq_error {f f' : FileStore} {offset : Nat} {values : List Nat} {e : EditError}
    (h : Store.write f offset values = (f', .error e)) : f' = f :=
  Store.eq_of_settle_error (write_eq_settle f offset values ▸ h)

/-- **A write to a file stores exactly the given elements,** or it changes nothing. -/
theorem writesExactly : Store.WritesExactly fun (f : FileStore) p => f.elements[p]? where
  ok {f f' offset values} h p := by
    obtain ⟨-, hrange, hfits, rfl⟩ := write_eq_ok h
    have helements := Codec.elements_overwrite hrange hfits
    rw [length_eq_length_elements] at hrange
    exact (congrArg (·[p]?) helements).trans (getElem?_overwrite_eq_or hrange p)
  error h p := by rw [write_eq_error h]

end EditOverlay.FileStore
