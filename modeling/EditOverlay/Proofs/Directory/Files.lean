import EditOverlay.Directory
import EditOverlay.Proofs.Store.Entry
import Mathlib.Data.Option.Basic
import Mathlib.Tactic.SplitIfs

/-! # Directories: files that are written

Writing a file changes what is at its place and nothing else (`bytesAt?_put`). If the file was there
before, paths lead where they led, and there is as before, but for the new bytes of the file
(`entryAt_put`, `find?_put`). A file that is copied before it is written leaves one new file, the
copy (`files_of_written`).

Whether a place can be written is a matter of what is there and of what the system refuses
(`Writable`, `exists_tryPut_iff`). -/

namespace EditOverlay.Directory

variable {d : Directory} {place : Place} {bytes old : List UInt8} {path : String}

/-! ### Places -/

theorem lookup_map_replace (files : List (Place × List UInt8)) (place q : Place)
    (bytes : List UInt8) :
    (files.map fun (p, old) => if p = place then (p, bytes) else (p, old)).lookup q =
      if q = place then (files.lookup q).map fun _ => bytes else files.lookup q := by
  induction files with
  | nil => split_ifs <;> rfl
  | cons file files ih =>
    obtain ⟨p, old⟩ := file
    have hfst : (if p = place then (p, bytes) else (p, old)).1 = p := by split_ifs <;> rfl
    rw [List.map_cons, List.lookup_cons, List.lookup_cons, ih, hfst]
    by_cases hq : q = p
    · subst hq
      split_ifs <;> simp
    · have hne : (q == p) = false := beq_eq_false_iff_ne.mpr hq
      simp only [hne]

/-- **A write changes its place** and no other. -/
theorem bytesAt?_put (d : Directory) (place q : Place) (bytes : List UInt8) :
    (d.put place bytes).bytesAt? q = if q = place then some bytes else d.bytesAt? q := by
  unfold put
  split_ifs with hthere hq hq
  · obtain ⟨old, hold⟩ := Option.isSome_iff_exists.mp hthere
    rw [bytesAt?, lookup_map_replace, if_pos hq, hq, show d.files.lookup place = some old from hold]
    rfl
  · rw [bytesAt?, lookup_map_replace, if_neg hq]
    rfl
  · have hnone : d.files.lookup place = none := Option.not_isSome_iff_eq_none.mp hthere
    rw [bytesAt?, List.lookup_append, hq, hnone]
    simp
  · have hne : (q == place) = false := beq_eq_false_iff_ne.mpr hq
    rw [bytesAt?, List.lookup_append, List.lookup_cons, hne, List.lookup_nil, Option.or_none]
    rfl

theorem bytesAt?_put_self (d : Directory) (place : Place) (bytes : List UInt8) :
    (d.put place bytes).bytesAt? place = some bytes := by
  rw [bytesAt?_put, if_pos rfl]

theorem bytesAt?_put_of_ne {q : Place} (h : q ≠ place) (bytes : List UInt8) :
    (d.put place bytes).bytesAt? q = d.bytesAt? q := by
  rw [bytesAt?_put, if_neg h]

@[simp] theorem folders_put (d : Directory) (place : Place) (bytes : List UInt8) :
    (d.put place bytes).folders = d.folders := by
  unfold put
  split_ifs <;> rfl

@[simp] theorem refusals_put (d : Directory) (place : Place) (bytes : List UInt8) :
    (d.put place bytes).refusals = d.refusals := by
  unfold put
  split_ifs <;> rfl

@[simp] theorem devices_put (d : Directory) (place : Place) (bytes : List UInt8) :
    (d.put place bytes).devices = d.devices := by
  unfold put
  split_ifs <;> rfl

theorem refusal?_congr {d' : Directory} (h : d'.refusals = d.refusals) (q : Place) (act : Act) :
    d'.refusal? q act = d.refusal? q act := by
  rw [refusal?, h, refusal?]

theorem guardAt_congr {d' : Directory} (h : d'.refusals = d.refusals) (q : Place) :
    d'.guardAt q = d.guardAt q := by
  rw [guardAt, refusal?_congr h, refusal?_congr h, refusal?_congr h, guardAt]

theorem isFolder_put (h : (d.bytesAt? place).isSome) (q : Place) :
    (d.put place bytes).isFolder q = d.isFolder q := by
  have hany : (d.put place bytes).files.any (fun (p, _) => q.isPrefixOf p && q != p) =
      d.files.any fun (p, _) => q.isPrefixOf p && q != p := by
    unfold put
    rw [if_pos h]
    simp only [List.any_map]
    congr 1
    funext file
    obtain ⟨p, old⟩ := file
    simp only [Function.comp_apply]
    split_ifs <;> rfl
  rw [isFolder, isFolder, folders_put, hany]

theorem entryAt_eq_file_iff {guard : Guard} :
    d.entryAt place = .file guard bytes ↔
      d.guardAt place = guard ∧ d.bytesAt? place = some bytes := by
  unfold entryAt
  cases d.bytesAt? place with
  | some old => simp
  | none =>
    simp only [reduceCtorEq, and_false, iff_false]
    split_ifs <;> simp

theorem entryAt_of_bytesAt? (h : d.bytesAt? place = some bytes) :
    d.entryAt place = .file (d.guardAt place) bytes := entryAt_eq_file_iff.mpr ⟨rfl, h⟩

theorem bytesAt?_of_entryAt_eq_absent {why : Absence} (h : d.entryAt place = .absent why) :
    d.bytesAt? place = none := by
  cases hbytes : d.bytesAt? place with
  | none => rfl
  | some bytes =>
    rw [entryAt_of_bytesAt? hbytes] at h
    cases h

theorem entryAt_put (h : (d.bytesAt? place).isSome) (q : Place) :
    (d.put place bytes).entryAt q =
      if q = place then .file (d.guardAt q) bytes else d.entryAt q := by
  unfold entryAt
  rw [bytesAt?_put, isFolder_put h, guardAt_congr (refusals_put d place bytes), devices_put]
  split_ifs <;> rfl

/-! ### Places that can be written -/

/-- A place can be written: there is a file or a device, or nothing in a folder, and the system does
not refuse. -/
def Writable (d : Directory) (place : Place) : Prop :=
  match d.entryAt place with
  | .absent _ => d.refusal? (above place) .add = none
  | .folder _ => False
  | .file guard _ => guard.writing = none
  | .device guard => guard.writing = none

theorem exists_tryPut_iff : (∃ d', d.tryPut place bytes = .ok d') ↔ d.Writable place := by
  have hheed : ∀ (reason : Option String) (d₀ : Directory),
      (∃ d', (heed reason >>= fun _ => Except.ok d₀) = .ok d') ↔ reason = none := by
    intro reason d₀
    simp only [heed_bind_eq_ok_iff, exists_and_left, Except.ok.injEq, exists_eq', and_true]
  unfold tryPut Writable
  cases d.entryAt place with
  | absent why => exact hheed _ _
  | folder guard => simp
  | file guard old => exact hheed _ _
  | device guard => exact hheed _ _

theorem eq_put_of_tryPut {d' : Directory} (h : d.tryPut place bytes = .ok d') {why : Absence}
    (hfree : d.entryAt place = .absent why) : d' = d.put place bytes := by
  unfold tryPut at h
  rw [hfree] at h
  exact (Except.ok.inj (heed_bind_eq_ok_iff.mp h).2).symm

/-! ### Files that are copied -/

/-- **A file is written and copied before, if asked for, to a new place.** No other file changes,
none is gone, and none is new but the copy. -/
theorem files_of_written {copy : Place} (hfile : d.bytesAt? place = some bytes)
    {keep : Bool} (hfree : keep = true → d.bytesAt? copy = none) (bytes' : List UInt8) :
    let d' := (if keep then d.put copy bytes else d).put place bytes'
    (∀ q, q ≠ place → d.bytesAt? q ≠ none → d'.bytesAt? q = d.bytesAt? q) ∧
    (∀ q, d.bytesAt? q ≠ none → d'.bytesAt? q ≠ none) ∧
    (∀ q, d.bytesAt? q = none ∧ d'.bytesAt? q ≠ none ↔ keep = true ∧ q = copy) ∧
    (keep = true → d'.bytesAt? copy = some bytes) ∧ d'.folders = d.folders := by
  intro d'
  have hfiles : ∀ q, d'.bytesAt? q = if q = place then some bytes'
      else if keep = true ∧ q = copy then some bytes else d.bytesAt? q := by
    intro q
    rw [bytesAt?_put]
    cases keep with
    | false => simp
    | true => simp [bytesAt?_put]
  have hthere : ∀ q, d.bytesAt? q ≠ none → ¬ (keep = true ∧ q = copy) := by
    rintro q hq ⟨hkeep, rfl⟩
    exact hq (hfree hkeep)
  have hplace : d.bytesAt? place ≠ none := by
    rw [hfile]
    exact Option.some_ne_none bytes
  have hcopied : keep = true → d'.bytesAt? copy = some bytes := by
    intro hkeep
    have hne : copy ≠ place := fun heq => hplace (heq ▸ hfree hkeep)
    rw [hfiles, if_neg hne, if_pos ⟨hkeep, rfl⟩]
  refine ⟨fun q hne hq => ?_, fun q hq => ?_, fun q => ⟨?_, ?_⟩, hcopied, ?_⟩
  · rw [hfiles, if_neg hne, if_neg (hthere q hq)]
  · rw [hfiles, if_neg (hthere q hq)]
    split_ifs
    · exact Option.some_ne_none bytes'
    · exact hq
  · rintro ⟨hnone, hsome⟩
    by_contra hcopy
    rw [hfiles, if_neg hcopy, hnone, ite_ne_right_iff] at hsome
    exact hplace (hsome.1 ▸ hnone)
  · rintro ⟨hkeep, rfl⟩
    rw [hcopied hkeep]
    exact ⟨hfree hkeep, Option.some_ne_none bytes⟩
  · rw [folders_put]
    cases keep with
    | false => rfl
    | true => exact folders_put d copy bytes

/-! ### Paths -/

theorem step_put (h : (d.bytesAt? place).isSome) (here : Place) (name : String) :
    (d.put place bytes).step here name = d.step here name := by
  obtain ⟨old, hold⟩ := Option.isSome_iff_exists.mp h
  have henter : (d.put place bytes).checkEnter here = d.checkEnter here := by
    rw [checkEnter, refusal?_congr (refusals_put d place bytes), checkEnter]
  unfold step
  rw [entryAt_put h, henter]
  split_ifs with hhere
  · rw [hhere, entryAt_of_bytesAt? hold]
  · rfl

theorem resolve_put (h : (d.bytesAt? place).isSome) (path : String) :
    (d.put place bytes).resolve path = d.resolve path := by
  have hstep : (d.put place bytes).step = d.step := funext fun here => funext fun name =>
    step_put h here name
  unfold resolve
  rw [hstep]

theorem find?_eq_some_iff :
    d.find? path = some (place, bytes) ↔
      d.resolve path = .ok place ∧ d.bytesAt? place = some bytes := by
  unfold find?
  cases d.resolve path with
  | error why => simp
  | ok there =>
    simp only [Option.map_eq_some_iff, Prod.mk.injEq, Except.ok.injEq]
    constructor
    · rintro ⟨bytes', hbytes, rfl, rfl⟩
      exact ⟨rfl, hbytes⟩
    · rintro ⟨rfl, hbytes⟩
      exact ⟨bytes, hbytes, rfl, rfl⟩

/-- **A path still leads to the file that is written.** -/
theorem find?_put (h : d.find? path = some (place, old)) (bytes : List UInt8) :
    (d.put place bytes).find? path = some (place, bytes) := by
  obtain ⟨hplace, hold⟩ := find?_eq_some_iff.mp h
  have hthere : (d.bytesAt? place).isSome := Option.isSome_iff_exists.mpr ⟨old, hold⟩
  exact find?_eq_some_iff.mpr ⟨(resolve_put hthere path).trans hplace, bytesAt?_put_self _ _ _⟩

theorem entry_eq_file_iff {guard : Guard} : d.entry path = .file guard bytes ↔
    ∃ place, d.guardAt place = guard ∧ d.find? path = some (place, bytes) := by
  unfold entry
  constructor
  · intro h
    cases hplace : d.resolve path with
    | error why =>
      rw [hplace] at h
      cases h
    | ok place =>
      rw [hplace] at h
      obtain ⟨hguard, hbytes⟩ := entryAt_eq_file_iff.mp h
      exact ⟨place, hguard, find?_eq_some_iff.mpr ⟨hplace, hbytes⟩⟩
  · rintro ⟨place, hguard, h⟩
    obtain ⟨hplace, hbytes⟩ := find?_eq_some_iff.mp h
    rw [hplace]
    exact entryAt_eq_file_iff.mpr ⟨hguard, hbytes⟩

theorem entry_of_find? (h : d.find? path = some (place, bytes)) :
    d.entry path = .file (d.guardAt place) bytes := entry_eq_file_iff.mpr ⟨place, rfl, h⟩

theorem holds_of_find? (h : d.find? path = some (place, bytes)) :
    (d.entry path).Holds (d.guardAt place) bytes := Or.inl (entry_of_find? h)

end EditOverlay.Directory
