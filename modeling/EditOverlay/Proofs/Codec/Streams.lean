import EditOverlay.Proofs.Codec.LittleEndian

/-! # Elements as bytes: streams of several widths

In a stream every element has a width of its own, so that its place is the sum of the lengths before
it (`span`). Writing and reading stop at the same kind of place: the first element whose end lies
behind a limit (`FirstBeyond`), which is the capacity of the buffer or the length of the bytes.

* `putAll_eq`: what is written, and when it fits.
* `refusesAt_iff`, `readAll_stops_iff`: where writing and reading stop.
* `readAll_written`: what is read back from the middle of other bytes. -/

namespace EditOverlay.Codec

/-! ### Places in a stream -/

/-- The bytes that elements of the widths take. -/
def span (ws : List Width) : Nat := (ws.map Width.byteCount).sum

@[simp] theorem span_nil : span [] = 0 := rfl

@[simp] theorem span_cons (w : Width) (ws : List Width) :
    span (w :: ws) = w.byteCount + span ws := by
  simp [span]

theorem span_take_succ {ws : List Width} {k : Nat} {w : Width} (h : ws[k]? = some w) :
    span (ws.take (k + 1)) = span (ws.take k) + w.byteCount := by
  rw [List.take_add_one, h]
  simp [span]

theorem span_take_le_span_take (ws : List Width) {i k : Nat} (h : i ≤ k) :
    span (ws.take i) ≤ span (ws.take k) := by
  obtain ⟨d, rfl⟩ := Nat.exists_eq_add_of_le h
  rw [List.take_add]
  simp [span]

/-- `k` is the first element whose end lies behind `limit`, if the first element is at `start`. -/
structure FirstBeyond (start limit : Nat) (ws : List Width) (k : Nat) : Prop where
  lt_length : k < ws.length
  beyond : limit < start + span (ws.take (k + 1))
  within : ∀ i < k, start + span (ws.take (i + 1)) ≤ limit

variable {start limit k : Nat} {w : Width} {ws : List Width}

theorem not_firstBeyond_nil : ¬ FirstBeyond start limit [] k := fun h => by
  have := h.lt_length
  simp at this

theorem firstBeyond_zero_iff :
    FirstBeyond start limit (w :: ws) 0 ↔ limit < start + w.byteCount := by
  refine ⟨fun h => by simpa using h.beyond, fun h => ⟨by simp, by simpa using h, ?_⟩⟩
  intro i hi
  omega

theorem firstBeyond_succ_iff : FirstBeyond start limit (w :: ws) (k + 1) ↔
    start + w.byteCount ≤ limit ∧ FirstBeyond (start + w.byteCount) limit ws k := by
  constructor
  · intro h
    have hfirst := h.within 0 (by omega)
    refine ⟨by simpa using hfirst, by simpa using h.lt_length, ?_, fun i hi => ?_⟩
    · simpa [Nat.add_assoc] using h.beyond
    · simpa [Nat.add_assoc] using h.within (i + 1) (by omega)
  · rintro ⟨hfirst, h⟩
    refine ⟨by simpa using h.lt_length, by simpa [Nat.add_assoc] using h.beyond, fun i hi => ?_⟩
    cases i with
    | zero => simpa using hfirst
    | succ i => simpa [Nat.add_assoc] using h.within i (by omega)

/-- From a start within the limit: all before `k` fits, and with `k` it is too much. -/
theorem firstBeyond_iff (hstart : start ≤ limit) : FirstBeyond start limit ws k ↔
    ∃ w, ws[k]? = some w ∧ start + span (ws.take k) ≤ limit ∧
      limit < start + span (ws.take k) + w.byteCount := by
  constructor
  · intro h
    have hk := List.getElem?_eq_getElem h.lt_length
    have hbeyond := h.beyond
    rw [span_take_succ hk] at hbeyond
    refine ⟨_, hk, ?_, by omega⟩
    cases k with
    | zero => simpa using hstart
    | succ k => exact h.within k (by omega)
  · rintro ⟨w, hk, hfit, hbeyond⟩
    refine ⟨(List.getElem?_eq_some_iff.mp hk).1, by rw [span_take_succ hk]; omega, fun i hi => ?_⟩
    have := span_take_le_span_take ws (show i + 1 ≤ k by omega)
    omega

/-! ### Writing -/

/-- The bytes of a stream. -/
def encodeItems (items : List (Width × Nat)) : List UInt8 :=
  items.flatMap fun (w, value) => encodeElement w value

@[simp] theorem encodeItems_cons (w : Width) (value : Nat) (items : List (Width × Nat)) :
    encodeItems ((w, value) :: items) = encodeElement w value ++ encodeItems items := by
  simp [encodeItems]

theorem length_encodeItems (items : List (Width × Nat)) :
    (encodeItems items).length = span (items.map Prod.fst) := by
  induction items with
  | nil => rfl
  | cons item items ih =>
    obtain ⟨w, value⟩ := item
    simp [ih]

theorem Buffer.putAll_eq {b : Buffer} (hb : b.bytes.length ≤ b.capacity)
    (items : List (Width × Nat)) : b.putAll items =
      if b.bytes.length + span (items.map Prod.fst) ≤ b.capacity then
        .ok ⟨b.capacity, b.bytes ++ encodeItems items⟩
      else .error fullBuffer := by
  induction items generalizing b with
  | nil => simp [putAll, encodeItems, hb]
  | cons item items ih =>
    obtain ⟨w, value⟩ := item
    rw [putAll, put]
    by_cases hfit : b.capacity < b.bytes.length + w.byteCount
    · rw [if_pos hfit, if_neg (by simp; omega)]
      rfl
    · have hnext := ih (b := ⟨b.capacity, b.bytes ++ encodeElement w value⟩) (by simp; omega)
      simp only [List.length_append, length_encodeElement, List.append_assoc] at hnext
      rw [if_neg hfit]
      simpa [Nat.add_assoc, bind, Except.bind] using hnext

theorem Buffer.putAll_eq_ok_iff {b b' : Buffer} (hb : b.bytes.length ≤ b.capacity)
    {items : List (Width × Nat)} : b.putAll items = .ok b' ↔
      b.bytes.length + span (items.map Prod.fst) ≤ b.capacity ∧
        b' = ⟨b.capacity, b.bytes ++ encodeItems items⟩ := by
  rw [putAll_eq hb]
  split_ifs with h <;> simp [h, eq_comm]

/-- Writing stops at the item `k`: those before it are written, and it is refused. -/
def Buffer.RefusesAt (b : Buffer) (items : List (Width × Nat)) (k : Nat) : Prop :=
  ∃ b' w value, b.putAll (items.take k) = .ok b' ∧ items[k]? = some (w, value) ∧
    b'.put w value = .error fullBuffer

/-- **Writing stops at the first item whose end lies behind the capacity.** -/
theorem Buffer.refusesAt_iff {b : Buffer} (hb : b.bytes.length ≤ b.capacity)
    {items : List (Width × Nat)} : b.RefusesAt items k ↔
      FirstBeyond b.bytes.length b.capacity (items.map Prod.fst) k := by
  simp only [firstBeyond_iff hb, RefusesAt, putAll_eq_ok_iff hb, List.getElem?_map,
    Option.map_eq_some_iff, ← List.map_take]
  constructor
  · rintro ⟨_, w, value, ⟨hfit, rfl⟩, hk, hput⟩
    refine ⟨w, ⟨_, hk, rfl⟩, hfit, ?_⟩
    rw [put] at hput
    split_ifs at hput with hbeyond
    simpa [length_encodeItems, Nat.add_assoc] using hbeyond
  · rintro ⟨_, ⟨⟨w, value⟩, hk, rfl⟩, hfit, hbeyond⟩
    refine ⟨_, w, value, ⟨hfit, rfl⟩, hk, ?_⟩
    rw [put, if_pos (by simpa [length_encodeItems, Nat.add_assoc] using hbeyond)]

/-! ### Reading -/

theorem Cursor.readAll_cons_of_le {c : Cursor} (h : c.pos + w.byteCount ≤ c.bytes.length) :
    c.readAll (w :: ws) =
      let (values, failure) := (Cursor.mk c.bytes (c.pos + w.byteCount)).readAll ws
      ((number ((c.bytes.drop c.pos).take w.byteCount), c.pos + w.byteCount) :: values,
        failure) := by
  rw [readAll, next, if_neg (by simp; omega)]

theorem Cursor.readAll_cons_of_lt {c : Cursor} (h : c.bytes.length < c.pos + w.byteCount) :
    c.readAll (w :: ws) = ([], some shortInput) := by
  have hpos := w.byteCount_pos
  rw [readAll, next, if_pos (by simp; omega)]

theorem Cursor.readAll_stops_iff {c : Cursor} : FirstBeyond c.pos c.bytes.length ws k ↔
    (c.readAll ws).2 = some shortInput ∧ (c.readAll ws).1.length = k := by
  induction ws generalizing c k with
  | nil => simp [readAll, not_firstBeyond_nil]
  | cons w ws ih =>
    by_cases hfit : c.pos + w.byteCount ≤ c.bytes.length
    · rw [readAll_cons_of_le hfit]
      cases k with
      | zero => simp [firstBeyond_zero_iff]; omega
      | succ k => simp [firstBeyond_succ_iff, hfit, ← ih]
    · rw [readAll_cons_of_lt (by omega)]
      cases k with
      | zero => simp [firstBeyond_zero_iff]; omega
      | succ k => simp [firstBeyond_succ_iff, hfit]

theorem Cursor.readAll_cases (c : Cursor) (ws : List Width) :
    ((c.readAll ws).2 = none ∧ (c.readAll ws).1.length = ws.length) ∨
      (c.readAll ws).2 = some shortInput := by
  induction ws generalizing c with
  | nil => exact .inl ⟨rfl, rfl⟩
  | cons w ws ih =>
    by_cases hfit : c.pos + w.byteCount ≤ c.bytes.length
    · rw [readAll_cons_of_le hfit]
      simpa using ih ⟨c.bytes, c.pos + w.byteCount⟩
    · rw [readAll_cons_of_lt (by omega)]
      exact .inr rfl

/-- **A stream is read back from the middle of other bytes,** each element without what does not
fit, and with its end. -/
theorem Cursor.readAll_written (before behind : List UInt8) (items : List (Width × Nat)) :
    ∃ read, (Cursor.mk (before ++ encodeItems items ++ behind) before.length).readAll
        (items.map Prod.fst) = (read, none) ∧
      ∀ i, read[i]? = items[i]?.map fun item => (item.2 % 2 ^ item.1.bits,
        before.length + span ((items.map Prod.fst).take (i + 1))) := by
  induction items generalizing before with
  | nil => exact ⟨[], rfl, fun i => by simp⟩
  | cons item items ih =>
    obtain ⟨w, value⟩ := item
    obtain ⟨read, hread, hitems⟩ := ih (before ++ encodeElement w value)
    have hfirst : number (encodeElement w value) = value % 2 ^ w.bits := by
      rw [encodeElement, number_digits, ← Width.two_pow_eq, ← Width.bits_eq]
    have hslice : ((before ++ (encodeElement w value ++ (encodeItems items ++ behind))).drop
        before.length).take w.byteCount = encodeElement w value := by
      rw [List.drop_left, List.take_left' (length_encodeElement w value)]
    simp only [List.append_assoc, List.length_append, length_encodeElement] at hread hitems
    refine ⟨(value % 2 ^ w.bits, before.length + w.byteCount) :: read, ?_, fun i => ?_⟩
    · simp only [List.map_cons, encodeItems_cons, List.append_assoc]
      rw [readAll_cons_of_le (by simp)]
      simp only [hslice, hfirst, hread]
    · cases i with
      | zero => simp
      | succ i => simpa [Nat.add_assoc] using hitems i

/-- **Streams of several widths go there and back.** Items are written into a buffer exactly if the
sum of their lengths is within its capacity; else writing stops at the first item whose end lies
behind the capacity. What was written is read back from the middle of other bytes: every value
without what does not fit, and behind each the place where it ends. From any bytes and any start,
behind them too, reading stops at the first element whose end lies behind the bytes, and nowhere
before; if there is none it reads all. -/
theorem streams_round_trip :
    (∀ (items : List (Width × Nat)) (capacity : Nat),
      ((∃ b, (Buffer.empty capacity).putAll items = .ok b) ↔
        span (items.map Prod.fst) ≤ capacity) ∧
      (∀ e, (Buffer.empty capacity).putAll items = .error e ↔
        e = fullBuffer ∧ capacity < span (items.map Prod.fst)) ∧
      (∀ k, (Buffer.empty capacity).RefusesAt items k ↔
        FirstBeyond 0 capacity (items.map Prod.fst) k) ∧
      ∀ b, (Buffer.empty capacity).putAll items = .ok b → ∀ before behind,
        ∃ read, (Cursor.mk (before ++ b.bytes ++ behind) before.length).readAll
            (items.map Prod.fst) = (read, none) ∧
          ∀ i, read[i]? = items[i]?.map fun item => (item.2 % 2 ^ item.1.bits,
            before.length + span ((items.map Prod.fst).take (i + 1)))) ∧
    ∀ (bytes : List UInt8) (start : Nat) (ws : List Width),
      let read := (Cursor.mk bytes start).readAll ws
      (∀ k, FirstBeyond start bytes.length ws k ↔
        read.2 = some shortInput ∧ read.1.length = k) ∧
      ((∀ k, ¬ FirstBeyond start bytes.length ws k) ↔
        read.2 = none ∧ read.1.length = ws.length) := by
  refine ⟨fun items capacity => ?_, fun bytes start ws =>
    ⟨fun k => Cursor.readAll_stops_iff (c := ⟨bytes, start⟩), ?_⟩⟩
  · have hempty : (Buffer.empty capacity).bytes.length ≤ (Buffer.empty capacity).capacity :=
      Nat.zero_le _
    have hput : (Buffer.empty capacity).putAll items =
        if span (items.map Prod.fst) ≤ capacity then .ok ⟨capacity, encodeItems items⟩
        else .error fullBuffer := by
      simpa [Buffer.empty] using Buffer.putAll_eq hempty items
    refine ⟨?_, fun e => ?_, fun k => Buffer.refusesAt_iff hempty, ?_⟩
    · rw [hput]
      split_ifs with h <;> simp [h]
    · rw [hput]
      split_ifs with h
      · simp; omega
      · simp [eq_comm]; omega
    · intro b hb before behind
      obtain ⟨-, rfl⟩ := (Buffer.putAll_eq_ok_iff hempty).mp hb
      exact Cursor.readAll_written before behind items
  · constructor
    · intro hnone
      rcases Cursor.readAll_cases ⟨bytes, start⟩ ws with hall | hstop
      · exact hall
      · exact absurd (Cursor.readAll_stops_iff (c := ⟨bytes, start⟩).mpr ⟨hstop, rfl⟩) (hnone _)
    · rintro ⟨hall, -⟩ k hk
      have hstop := (Cursor.readAll_stops_iff (c := ⟨bytes, start⟩).mp hk).1
      rw [hall] at hstop
      cases hstop

/-- A byte, a word and a long word fill seven bytes. In six the long word is refused; in seven it is
not, and between other bytes all three are read back, the word without its high digit. -/
theorem streams_round_trip_three_widths :
    FirstBeyond 0 6 [.w8, .w16, .w32] 2 ∧
      (Buffer.empty 6).RefusesAt [(.w8, 0x5a), (.w16, 0x1abcd), (.w32, 7)] 2 ∧
      ∃ b, (Buffer.empty 7).putAll [(.w8, 0x5a), (.w16, 0x1abcd), (.w32, 7)] = .ok b ∧
        ∃ read, (Cursor.mk ([1, 2] ++ b.bytes ++ [3]) 2).readAll [.w8, .w16, .w32] = (read, none) ∧
          read[1]? = some (0xabcd, 5) := by
  have hstop : FirstBeyond 0 6 [.w8, .w16, .w32] 2 :=
    ⟨by decide, by decide, by decide⟩
  obtain ⟨-, -, hrefused, -⟩ := streams_round_trip.1 [(.w8, 0x5a), (.w16, 0x1abcd), (.w32, 7)] 6
  obtain ⟨hroom, -, -, hback⟩ := streams_round_trip.1 [(.w8, 0x5a), (.w16, 0x1abcd), (.w32, 7)] 7
  obtain ⟨b, hb⟩ := hroom.mpr (by decide)
  obtain ⟨read, hread, hitems⟩ := hback b hb [1, 2] [3]
  exact ⟨hstop, (hrefused 2).mpr hstop, b, hb, read, hread, hitems 1⟩

end EditOverlay.Codec
