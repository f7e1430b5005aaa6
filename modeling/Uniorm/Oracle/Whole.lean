import Mathlib.Data.Rat.Cast.Order
import Mathlib.Tactic.Linarith
import Uniorm.Oracle.Blocks

/-! # Whole values or errors

What a buffer has to hold of a cell for its value to be the whole one, and which
cells of which columns fit which buffers. After any sequence of fetches the
reader of a place ends up with the whole value, or with an error, exactly for
the cells that fit.
-/
namespace Uniorm.Oracle

open Foundation Value

section
variable {V : Type} (oci : Oci V)

def Oci.moment (column : DescribedColumn) (value : V) : Option OciDateTime :=
  if column.dty.isDateColumn then (oci.asDate column value).map OciDate.dateTime
  else oci.asTimestamp column value

/-- The whole of a value in a buffer: the number that it is, all of its text or bytes, or all of the
point in time. -/
def Whole (column : DescribedColumn) (value : V) : (r : Requested) → r.Slot → Prop
  | .bit, x => oci.asNumber column value = some (x.toInt : ℚ)
  | .int8, x => oci.asNumber column value = some (x.toInt : ℚ)
  | .int16, x => oci.asNumber column value = some (x.toInt : ℚ)
  | .int32, x => oci.asNumber column value = some (x.toInt : ℚ)
  | .int64, x => oci.asNumber column value = some (x.toInt : ℚ)
  | .float32, x => ∃ q, x = some q ∧ oci.asNumber column value = some q
  | .float64, x => ∃ q, x = some q ∧ oci.asNumber column value = some q
  | .chars _, text => oci.asText column value = some text
  | .bytes _, bytes => oci.asBinary column value = some bytes
  | .timestampParts, parts => oci.moment column value = some ⟨parts, 0⟩
  | .dateParts, parts =>
    oci.moment column value = some ⟨⟨parts.year, parts.month, parts.day, 0, 0, 0, 0⟩, 0⟩
  -- a time of day leaves the day out
  | .timeParts, _ => False

def Delivered (column : DescribedColumn) : Cell V → (r : Requested) → Option r.Slot → Prop
  | .null, _, found => found = none
  | .scalar value, r, found => ∃ x, found = some x ∧ Whole oci column value r x
  | .lob content, .chars _, found => found = some content
  | .lob content, .bytes _, found => found = some content
  | .lob _, _, _ => False

/-- A whole number of `bits` bits. -/
def IsWidth (bits : ℕ) (n : Option ℚ) : Prop :=
  ∃ y : ℤ, n = some (y : ℚ) ∧ -2 ^ (bits - 1) ≤ y ∧ y < 2 ^ (bits - 1)

def FitsStaging (column : DescribedColumn) (capacity : ℕ) (bytes : Option (List UInt8)) : Prop :=
  ∃ b, bytes = some b ∧ b.length ≤ stageWidth column capacity ∧ b.length < 2 ^ 16

/-- The cells of a column that a buffer gets whole. -/
def Fits (column : DescribedColumn) : Cell V → Requested → Prop
  | .null, _ => True
  | .scalar value, .bit => IsWidth 8 (oci.asNumber column value)
  | .scalar value, .int8 => IsWidth 8 (oci.asNumber column value)
  | .scalar value, .int16 => IsWidth 16 (oci.asNumber column value)
  | .scalar value, .int32 => IsWidth 32 (oci.asNumber column value)
  | .scalar value, .int64 => IsWidth 64 (oci.asNumber column value)
  | .scalar value, .float32 => ∃ q, oci.asNumber column value = some q ∧ IsFloat q
  | .scalar value, .float64 => ∃ q, oci.asNumber column value = some q ∧ IsDouble q
  | .scalar value, .chars capacity =>
    FitsStaging column capacity (oci.asText column value) ∧
      (capacity = 0 → oci.asText column value ≠ some [])
  | .scalar value, .bytes capacity => FitsStaging column capacity (oci.asBinary column value)
  | .scalar value, .timestampParts => ∃ m, oci.moment column value = some m ∧ m.zone = 0
  | .scalar value, .dateParts => ∃ m, oci.moment column value = some m ∧ m.zone = 0 ∧
      m.parts.hour = 0 ∧ m.parts.minute = 0 ∧ m.parts.second = 0 ∧ m.parts.fractionNs = 0
  | .scalar _, .timeParts => False
  | .lob content, .chars _ =>
    if column.dty.isWideText then content.length < 2 ^ 32 else content = []
  | .lob content, .bytes _ =>
    if column.dty.isWideText then content = [] else content.length < 2 ^ 32
  | .lob _, _ => False

theorem lobRead_pos {content : List UInt8} {offset : UInt32} {k : ℕ} (h : offset.toNat = k + 1)
    (amount : ℕ) : lobRead content offset amount = some ((content.drop k).take amount) := by
  have hne : offset ≠ 0 := by
    rintro rfl
    simp at h
  rw [lobRead, if_neg hne, h, Nat.add_sub_cancel]

theorem toNat_next {offset : UInt32} {n : ℕ} (h : offset.toNat + n < 2 ^ 32) :
    (offset + UInt32.ofNat n).toNat = offset.toNat + n := by
  rw [UInt32.toNat_add, UInt32.toNat_ofNat', Nat.mod_eq_of_lt (by omega : n < 2 ^ 32),
    Nat.mod_eq_of_lt h]

/-- A value of less than four gigabytes is read to its end, or its end is refused. -/
theorem readLocator_ends (e : OciError) {content : List UInt8} (hshort : content.length < 2 ^ 32)
    {offset : UInt32} {k : ℕ} (hoffset : offset.toNat = k + 1) (hk : k ≤ content.length)
    (out : List UInt8) : ∃ rounds outcome, readLocator e content rounds offset out = some outcome ∧
      (outcome = .ok (out ++ content.drop k) ∨ outcome = .error e) := by
  induction hn : content.length - k using Nat.strongRecOn generalizing offset k out with
  | ind n ih =>
    have hread := @lobRead_pos content offset k hoffset chunkSize
    by_cases hend : (content.drop k).take chunkSize = []
    · have hnone : content.drop k = [] := by
        rcases List.take_eq_nil_iff.mp hend with hzero | hnil
        · cases hzero
        · exact hnil
      refine ⟨1, .ok out, ?_, .inl (by rw [hnone, List.append_nil])⟩
      rw [readLocator, hread]
      simp [hnone]
    · have hlength : ((content.drop k).take chunkSize).length = min chunkSize (content.length - k) := by
        rw [List.length_take, List.length_drop]
      have hpos : 0 < ((content.drop k).take chunkSize).length := List.length_pos_iff.mpr hend
      generalize hchunk : (content.drop k).take chunkSize = chunk at hread hend hlength hpos
      have hstep : ∀ rounds, readLocator e content (rounds + 1) offset out =
          readLocator e content rounds (offset + UInt32.ofNat chunk.length) (out ++ chunk) := by
        intro rounds
        rw [readLocator, hread]
        simp [hend]
      have hsplit : content.drop k = chunk ++ content.drop (k + chunk.length) := by
        rw [← hchunk, hchunk, ← List.drop_drop, ← List.take_append_drop chunkSize (content.drop k),
          hchunk]
        simp
      by_cases hwrap : k + chunk.length + 1 < 2 ^ 32
      · have hnext := @toNat_next offset chunk.length (by omega)
        obtain ⟨rounds, outcome, hrounds, hresult⟩ := ih (content.length - (k + chunk.length))
          (by omega) (by omega : (offset + UInt32.ofNat chunk.length).toNat = k + chunk.length + 1)
          (by omega) (out ++ chunk) rfl
        refine ⟨rounds + 1, outcome, (hstep rounds).trans hrounds, ?_⟩
        rwa [hsplit, ← List.append_assoc]
      · -- the offset behind the last byte does not go into 32 bits
        have hzero : offset + UInt32.ofNat chunk.length = 0 := by
          rw [← UInt32.toNat_inj, UInt32.toNat_add, UInt32.toNat_ofNat']
          have hsum : offset.toNat + chunk.length = 2 ^ 32 := by omega
          rw [Nat.mod_eq_of_lt (by omega : chunk.length < 2 ^ 32), hsum]
          rfl
        refine ⟨2, .error e, (hstep 1).trans ?_, .inr rfl⟩
        rw [hzero]
        rfl

/-- Of a value of four gigabytes or more, every round reads a whole chunk. -/
theorem readLocator_endless (e : OciError) {content : List UInt8} (hlong : 2 ^ 32 ≤ content.length)
    (rounds : ℕ) {offset : UInt32} (hoffset : offset.toNat % chunkSize = 1) (out : List UInt8) :
    readLocator e content rounds offset out = none := by
  induction rounds generalizing offset out with
  | zero => rfl
  | succ rounds ih =>
    have hlt := offset.toNat_lt
    obtain ⟨k, hk⟩ : ∃ k, offset.toNat = k + 1 := ⟨offset.toNat - 1, by unfold chunkSize at *; omega⟩
    have hlength : ((content.drop k).take chunkSize).length = chunkSize := by
      rw [List.length_take, List.length_drop]
      unfold chunkSize at *
      omega
    have hne : (content.drop k).take chunkSize ≠ [] := by
      intro hnil
      rw [hnil] at hlength
      cases hlength
    rw [readLocator, lobRead_pos hk]
    simp only [List.isEmpty_iff, hne, if_false]
    rw [hlength]
    apply ih
    rw [UInt32.toNat_add, UInt32.toNat_ofNat']
    unfold chunkSize at *
    omega

/-- An integer is in a narrower type what it was exactly when it lies in that type's range. -/
theorem narrowed_eq_iff {bits : ℕ} (hbits : bits ∈ [8, 16, 32, 64]) {q : ℚ} {x : Int64}
    (hx : oci.numberToInt q = some x) :
    q = ((x.toInt.bmod (2 ^ bits) : ℤ) : ℚ) ↔ IsWidth bits (some q) := by
  constructor
  · intro hq
    refine ⟨x.toInt.bmod (2 ^ bits), congrArg some hq, ?_⟩
    have hlow := Int.le_bmod (x := x.toInt) (m := 2 ^ bits) (by positivity)
    have hhigh := Int.bmod_lt (x := x.toInt) (m := 2 ^ bits) (by positivity)
    simp only [List.mem_cons, List.not_mem_nil, or_false] at hbits
    obtain rfl | rfl | rfl | rfl := hbits <;> norm_num at hlow hhigh ⊢ <;> omega
  · rintro ⟨y, hy, hlow, hhigh⟩
    obtain rfl := Option.some.inj hy
    have hinside : -2 ^ 63 ≤ y ∧ y < 2 ^ 63 ∧ y.bmod (2 ^ bits) = y := by
      simp only [List.mem_cons, List.not_mem_nil, or_false] at hbits
      obtain rfl | rfl | rfl | rfl := hbits <;> norm_num at hlow hhigh ⊢ <;>
        exact ⟨by omega, by omega, Int.bmod_eq_of_le (by omega) (by omega)⟩
    obtain ⟨hmin, hmax, hbmod⟩ := hinside
    have hto : (Int64.ofInt y).toInt = y := Int64.toInt_ofInt_of_le hmin hmax
    have hexact := oci.numberToInt_exact (Int64.ofInt y)
    rw [hto, hx] at hexact
    rw [Option.some.inj hexact, hto, hbmod]

/-- The buffers whose value is in the place itself. -/
def Requested.IsFixed : Requested → Prop
  | .chars _ | .bytes _ => False
  | _ => True

section Cell
variable {s : Statement V} {slot : ColumnSlot} {column row : ℕ} {r : Requested}
  {c : DescribedColumn} {kind : StageKind} {cell : Cell V} {stage : Staged}
  {place before after : Place r} {wide : Bool}

/-- The reader of a place comes to an end with the whole of a cell or an error, and no read that the
indicator asks for is refused. -/
structure ReadsWhole (s : Statement V) (slot : ColumnSlot) (row : ℕ) (c : DescribedColumn)
    (cell : Cell V) (r : Requested) (place : Place r) : Prop where
  ends : ∃ rounds outcome, s.finalize oci rounds slot.position row r place = some outcome ∧
    ∀ found, outcome = .ok found → Delivered oci c cell r found
  owed : place.asks r = true → slot.requireWide slot.position row = .ok ()

theorem asks_of_isFixed (hr : r.IsFixed) : place.asks r = false := by
  cases r <;> first | rfl | cases hr

theorem finalize_of_isFixed (hr : r.IsFixed) (hindicator : place.indicator ≠ nullIndicator)
    (rounds : ℕ) : s.finalize oci rounds column row r place = some (.ok (some place.slot)) := by
  rw [Statement.finalize, if_neg hindicator]
  cases r <;> first | rfl | cases hr

theorem readsWhole_found_iff {x : r.Slot}
    (hfound : ∀ rounds, s.finalize oci rounds slot.position row r place = some (.ok (some x)))
    (howed : place.asks r = true → slot.requireWide slot.position row = .ok ()) :
    ReadsWhole oci s slot row c cell r place ↔ Delivered oci c cell r (some x) := by
  constructor
  · rintro ⟨⟨rounds, outcome, hfinal, hwhole⟩, -⟩
    rw [hfound] at hfinal
    exact hwhole _ (Option.some.inj hfinal).symm
  · intro hwhole
    refine ⟨⟨0, _, hfound 0, fun found heq => ?_⟩, howed⟩
    obtain rfl := Except.ok.inj heq
    exact hwhole

theorem readsWhole_fixed_iff (hr : r.IsFixed) (hindicator : place.indicator ≠ nullIndicator) :
    ReadsWhole oci s slot row c cell r place ↔ Delivered oci c cell r (some place.slot) := by
  apply readsWhole_found_iff oci (finalize_of_isFixed oci hr hindicator)
  rw [asks_of_isFixed hr]
  exact fun h => by cases h

theorem numberToInteger_eq_ok {q : ℚ} {x : Int64} (h : numberToInteger oci q = .ok x) :
    oci.numberToInt q = some x := by
  unfold numberToInteger at h
  split at h
  · rename_i hx
    rw [hx, Except.ok.inj h]
  · cases h

theorem numberToReal_eq_ok {q x : ℚ} (h : numberToReal oci q = .ok x) :
    oci.numberToReal q = some x := by
  unfold numberToReal at h
  split at h
  · rename_i hx
    rw [hx, Except.ok.inj h]
  · cases h

theorem isDouble_of_isFloat {q : ℚ} (h : IsFloat q) : IsDouble q := by
  obtain ⟨m, e, hm, hlow, hhigh, hq⟩ := h
  exact ⟨m, e, lt_trans hm (by norm_num), by omega, by omega, hq⟩

variable {value : V}

/-- A number is whole in its place exactly when the place's type has it. -/
theorem putNumber_spec {q : ℚ} (hkind : pickStage r c = .ok .number)
    (hnumber : oci.asNumber c value = some q)
    (hput : putNumber oci q r ⟨before.slot, 0⟩ = .ok (after, wide)) :
    r.IsFixed ∧ after.indicator = 0 ∧
      (Whole oci c value r after.slot ↔ Fits oci c (.scalar value) r) := by
  have hinteger : ∀ {bits : ℕ} {x : Int64}, bits ∈ [8, 16, 32, 64] →
      numberToInteger oci q = .ok x →
      (oci.asNumber c value = some ((x.toInt.bmod (2 ^ bits) : ℤ) : ℚ) ↔
        IsWidth bits (oci.asNumber c value)) := by
    intro bits x hbits hx
    rw [hnumber, Option.some_inj]
    exact narrowed_eq_iff oci hbits (numberToInteger_eq_ok oci hx)
  cases r with
  | bit =>
    obtain ⟨x, hx, hafter⟩ := map_eq_ok.mp hput
    obtain ⟨rfl, rfl⟩ := Prod.mk.inj hafter
    refine ⟨trivial, rfl, ?_⟩
    simp only [Whole, Fits, Int64.toInt_toInt8]
    exact hinteger (by simp) hx
  | int8 =>
    obtain ⟨x, hx, hafter⟩ := map_eq_ok.mp hput
    obtain ⟨rfl, rfl⟩ := Prod.mk.inj hafter
    refine ⟨trivial, rfl, ?_⟩
    simp only [Whole, Fits, Int64.toInt_toInt8]
    exact hinteger (by simp) hx
  | int16 =>
    obtain ⟨x, hx, hafter⟩ := map_eq_ok.mp hput
    obtain ⟨rfl, rfl⟩ := Prod.mk.inj hafter
    refine ⟨trivial, rfl, ?_⟩
    simp only [Whole, Fits, Int64.toInt_toInt16]
    exact hinteger (by simp) hx
  | int32 =>
    obtain ⟨x, hx, hafter⟩ := map_eq_ok.mp hput
    obtain ⟨rfl, rfl⟩ := Prod.mk.inj hafter
    refine ⟨trivial, rfl, ?_⟩
    simp only [Whole, Fits, Int64.toInt_toInt32]
    exact hinteger (by simp) hx
  | int64 =>
    obtain ⟨x, hx, hafter⟩ := map_eq_ok.mp hput
    obtain ⟨rfl, rfl⟩ := Prod.mk.inj hafter
    refine ⟨trivial, rfl, ?_⟩
    simp only [Whole, Fits]
    have hsame : x.toInt.bmod (2 ^ 64) = x.toInt :=
      Int.bmod_eq_of_le (by have := x.le_toInt; norm_num at *; omega)
        (by have := x.toInt_lt; norm_num at *; omega)
    rw [← hinteger (by simp) hx, hsame]
  | float32 =>
    obtain ⟨x, hx, hafter⟩ := map_eq_ok.mp hput
    obtain ⟨rfl, rfl⟩ := Prod.mk.inj hafter
    refine ⟨trivial, rfl, ?_⟩
    simp only [Whole, Fits, hnumber, Option.some_inj]
    constructor
    · rintro ⟨q', hnarrow, rfl⟩
      exact ⟨q, rfl, oci.narrowed_isFloat _ _ hnarrow⟩
    · rintro ⟨q', rfl, hfloat⟩
      have hreal := oci.numberToReal_exact q (isDouble_of_isFloat hfloat)
      rw [numberToReal_eq_ok oci hx] at hreal
      rw [Option.some.inj hreal]
      exact ⟨q, oci.narrowed_exact q hfloat, rfl⟩
  | float64 =>
    obtain ⟨x, hx, hafter⟩ := map_eq_ok.mp hput
    obtain ⟨rfl, rfl⟩ := Prod.mk.inj hafter
    refine ⟨trivial, rfl, ?_⟩
    have hx' := numberToReal_eq_ok oci hx
    simp only [Whole, Fits, hnumber, Option.some_inj]
    constructor
    · rintro ⟨q', rfl, rfl⟩
      exact ⟨q, rfl, oci.numberToReal_isDouble _ _ hx'⟩
    · rintro ⟨q', rfl, hdouble⟩
      rw [oci.numberToReal_exact q hdouble] at hx'
      exact ⟨x, rfl, Option.some.inj hx'⟩
  | chars => unfold pickStage at hkind; split_ifs at hkind <;> cases hkind
  | bytes => unfold pickStage at hkind; split_ifs at hkind <;> cases hkind
  | timestampParts => cases hput
  | dateParts => cases hput
  | timeParts => cases hput

theorem putParts_spec {e : OciError} {m : OciDateTime} (hmoment : oci.moment c value = some m)
    (hput : putParts e m.parts r ⟨before.slot, 0⟩ = .ok (after, wide)) :
    r.IsFixed ∧ after.indicator = 0 ∧
      (Whole oci c value r after.slot ↔ Fits oci c (.scalar value) r) := by
  cases r with
  | timestampParts =>
    obtain ⟨rfl, rfl⟩ := Prod.mk.inj (Except.ok.inj hput)
    refine ⟨trivial, rfl, ?_⟩
    simp only [Whole, Fits, hmoment, Option.some_inj]
    constructor
    · rintro hm
      exact ⟨m, rfl, by rw [hm]⟩
    · rintro ⟨m', rfl, hzone⟩
      rw [← hzone]
  | dateParts =>
    obtain ⟨rfl, rfl⟩ := Prod.mk.inj (Except.ok.inj hput)
    refine ⟨trivial, rfl, ?_⟩
    simp only [Whole, Fits, hmoment, Option.some_inj]
    constructor
    · intro hm
      exact ⟨m, rfl, by rw [hm], by rw [hm], by rw [hm], by rw [hm], by rw [hm]⟩
    · rintro ⟨m', rfl, hzone, hhour, hminute, hsecond, hfraction⟩
      rcases m with ⟨⟨year, month, day, hour, minute, second, fraction⟩, zone⟩
      obtain rfl : zone = 0 := hzone
      obtain rfl : hour = 0 := hhour
      obtain rfl : minute = 0 := hminute
      obtain rfl : second = 0 := hsecond
      obtain rfl : fraction = 0 := hfraction
      rfl
  | timeParts =>
    obtain ⟨rfl, rfl⟩ := Prod.mk.inj (Except.ok.inj hput)
    exact ⟨trivial, rfl, Iff.rfl⟩
  | _ => cases hput

theorem moment_of_stage {value : V} {found : OciDateTime} (hkind : pickStage r c = .ok kind)
    (hdefine : oci.define c kind slot.rowSize (.scalar value) = some stage)
    (hstage : (∃ date, stage = .date date ∧ found = date.dateTime) ∨ stage = .timestamp found) :
    oci.moment c value = some found := by
  unfold Oci.moment
  unfold Oci.define at hdefine
  rcases hstage with ⟨date, rfl, rfl⟩ | rfl
  · cases kind with
    | date =>
      have hdate : c.dty.isDateColumn = true := by
        unfold pickStage at hkind
        cases r <;> simp at hkind <;> grind
      obtain ⟨d, hd, hsame⟩ := Option.map_eq_some_iff.mp hdefine
      rw [if_pos hdate, hd, Option.map_some, Staged.date.inj hsame]
    | _ => simp [Oci.held] at hdefine
  · cases kind with
    | timestamp =>
      have hdate : c.dty.isDateColumn = false := by
        unfold pickStage at hkind
        cases r <;> simp at hkind <;> grind
      obtain ⟨d, hd, hsame⟩ := Option.map_eq_some_iff.mp hdefine
      rw [if_neg (by simp [hdate]), hd, Staged.timestamp.inj hsame]
    | _ => simp [Oci.held] at hdefine

/-- What can be read of a staged text is the text exactly when that fits. -/
theorem text_held_eq_iff {size : ℕ} {text : List UInt8} :
    (oci.held size text).text size = text ↔ text.length ≤ size ∧ text.length < 2 ^ 16 := by
  have hlt : (oci.reported text.length).toNat < 2 ^ 16 := UInt16.toNat_lt _
  have hroom := oci.truncated_length size text
  simp only [Oci.held, Staged.text]
  constructor
  · intro h
    have hlength := congrArg List.length h
    rw [List.length_take] at hlength
    unfold stagedLength at hlength
    split_ifs at hlength <;> omega
  · rintro ⟨hsize, hshort⟩
    rw [oci.truncated_exact size text hsize, List.take_of_length_le]
    rw [oci.reported_exact _ hshort, stagedLength]
    split_ifs <;> omega

theorem copied_take (data place : List UInt8) : (copied data place).take data.length = data := by
  simp [copied]

/-- Where a read is owed and the reader is not given a locator of its kind, the staging is read. -/
theorem longValue_bytes {held : List UInt8} {length : UInt16} (kind : StageKind) (e : OciError)
    (rounds : ℕ) (hstaged : slot.staged[row]? = some (.bytes held length)) :
    slot.longValue oci kind e rounds row = some (.ok ((Staged.bytes held length).text slot.rowSize)) := by
  rw [ColumnSlot.longValue, hstaged]

/-- What a read of a staged value gives when one is owed, and when none is. -/
theorem readLong_bytes {held : List UInt8} {length : UInt16} {data : List UInt8} (kind : StageKind)
    (e : OciError) (rounds : ℕ) (hslot : s.wideSlot slot.position = .ok slot)
    (hstaged : slot.staged[row]? = some (.bytes held length))
    (hdata : (Staged.bytes held length).text slot.rowSize = data)
    (hwide : slot.wideRows[row]? = some true) :
    s.readLong oci kind e rounds slot.position row = some (.ok data) := by
  rw [Statement.readLong, hslot]
  simp only [ColumnSlot.requireWide, hwide, if_true]
  rw [longValue_bytes oci _ _ _ hstaged, hdata]

theorem readsWhole_chars_iff {capacity : ℕ} {held : List UInt8} {length : UInt16} {data : List UInt8}
    {before after : Place (.chars capacity)} (hslot : s.wideSlot slot.position = .ok slot)
    (hstaged : slot.staged[row]? = some (.bytes held length))
    (hdata : (Staged.bytes held length).text slot.rowSize = data)
    (hput : putText data (.chars capacity) before = (after, wide))
    (hwide : slot.wideRows[row]? = some wide) :
    ReadsWhole oci s slot row c cell (.chars capacity) after ↔
      Delivered oci c cell (.chars capacity) (some data) ∧ (capacity = 0 → data ≠ []) := by
  simp only [putText, putLimited] at hput
  by_cases hfits : data.length ≤ capacity - 1
  · rw [if_pos hfits] at hput
    obtain ⟨rfl, rfl⟩ := Prod.mk.inj hput
    by_cases hzero : capacity = 0
    · -- an empty text in a place without room is asked for, but not owed
      subst hzero
      obtain rfl : data = [] := List.eq_nil_of_length_eq_zero (by omega)
      simp only [true_implies, ne_eq, not_true_eq_false, and_false, iff_false]
      rintro ⟨-, howed⟩
      have hrefused := howed (by simp [Place.asks])
      simp [ColumnSlot.requireWide, hwide] at hrefused
    · have hasks : Place.asks (.chars capacity) ⟨copied data before.slot, data.length⟩ = false := by
        simp [Place.asks, noTotal]
        omega
      have hnull : (data.length : ℤ) ≠ nullIndicator := by
        unfold nullIndicator
        omega
      have hfound : ∀ rounds, s.finalize oci rounds slot.position row (.chars capacity)
          ⟨copied data before.slot, data.length⟩ = some (.ok (some data)) := by
        intro rounds
        rw [Statement.finalize, if_neg hnull, Statement.write, hasks]
        simp [copied_take, Except.map]
      rw [readsWhole_found_iff oci hfound (by simp [hasks])]
      simp [hzero]
  · rw [if_neg hfits] at hput
    obtain ⟨rfl, rfl⟩ := Prod.mk.inj hput
    have hasks : Place.asks (.chars capacity)
        ⟨copied (data.take (capacity - 1)) before.slot, (capacity - 1 : ℕ) + 1⟩ = true := by
      simp [Place.asks]
      omega
    have hnull : ((capacity - 1 : ℕ) : ℤ) + 1 ≠ nullIndicator := by
      unfold nullIndicator
      omega
    have hfound : ∀ rounds, s.finalize oci rounds slot.position row (.chars capacity)
        ⟨copied (data.take (capacity - 1)) before.slot, (capacity - 1 : ℕ) + 1⟩ =
          some (.ok (some data)) := by
      intro rounds
      have hlong := readLong_bytes oci .wideText .characterLob rounds hslot hstaged hdata hwide
      rw [Statement.finalize, if_neg hnull, Statement.write, hasks, Statement.readLongText]
      simp [hlong, Except.map]
    rw [readsWhole_found_iff oci hfound fun _ => by simp [ColumnSlot.requireWide, hwide]]
    have hne : data ≠ [] := by
      rintro rfl
      simp at hfits
    simp [hne]

theorem readsWhole_bytes_iff {capacity : ℕ} {held : List UInt8} {length : UInt16} {data : List UInt8}
    {before after : Place (.bytes capacity)} (hslot : s.wideSlot slot.position = .ok slot)
    (hstaged : slot.staged[row]? = some (.bytes held length))
    (hdata : (Staged.bytes held length).text slot.rowSize = data)
    (hput : putText data (.bytes capacity) before = (after, wide))
    (hwide : slot.wideRows[row]? = some wide) :
    ReadsWhole oci s slot row c cell (.bytes capacity) after ↔
      Delivered oci c cell (.bytes capacity) (some data) := by
  simp only [putText, putLimited] at hput
  by_cases hfits : data.length ≤ capacity
  · rw [if_pos hfits] at hput
    obtain ⟨rfl, rfl⟩ := Prod.mk.inj hput
    have hasks : Place.asks (.bytes capacity) ⟨copied data before.slot, data.length⟩ = false := by
      simp [Place.asks, noTotal]
      omega
    have hnull : (data.length : ℤ) ≠ nullIndicator := by
      unfold nullIndicator
      omega
    apply readsWhole_found_iff oci ?_ (by simp [hasks])
    intro rounds
    rw [Statement.finalize, if_neg hnull, Statement.write, hasks]
    simp [copied_take, Except.map]
  · rw [if_neg hfits] at hput
    obtain ⟨rfl, rfl⟩ := Prod.mk.inj hput
    have hasks : Place.asks (.bytes capacity)
        ⟨copied (data.take capacity) before.slot, (capacity : ℤ) + 1⟩ = true := by
      simp [Place.asks]
    have hnull : (capacity : ℤ) + 1 ≠ nullIndicator := by
      unfold nullIndicator
      omega
    apply readsWhole_found_iff oci ?_ fun _ => by simp [ColumnSlot.requireWide, hwide]
    intro rounds
    have hlong := readLong_bytes oci .wideBinary .binaryLob rounds hslot hstaged hdata hwide
    rw [Statement.finalize, if_neg hnull, Statement.write, hasks, Statement.readLongBytes]
    simp [hlong, Except.map]

theorem readLong_locator {content : List UInt8} (kind : StageKind) (e : OciError) (rounds : ℕ)
    (hslot : s.wideSlot slot.position = .ok slot)
    (hstaged : slot.staged[row]? = some (.locator content))
    (hwide : slot.wideRows[row]? = some true) :
    s.readLong oci kind e rounds slot.position row =
      if slot.kind = kind then readLocator e content rounds 1 [] else some (.ok []) := by
  rw [Statement.readLong, hslot]
  simp only [ColumnSlot.requireWide, hwide, if_true]
  rw [ColumnSlot.longValue, hstaged]

/-- The outcome of a read through a locator is the whole value or an error exactly when the value is
shorter than four gigabytes, or when the locator is of the other kind and there is nothing. -/
theorem locator_outcome_iff {content : List UInt8} {kind : StageKind} (e : OciError) :
    (∃ rounds outcome, (if slot.kind = kind then readLocator e content rounds 1 []
        else some (.ok [])) = some outcome ∧ ∀ found, outcome = .ok found → found = content) ↔
      if slot.kind = kind then content.length < 2 ^ 32 else content = [] := by
  split_ifs with hkind
  · constructor
    · rintro ⟨rounds, outcome, hread, -⟩
      by_contra hlong
      rw [readLocator_endless e (not_lt.mp hlong) rounds (by decide)] at hread
      cases hread
    · intro hshort
      obtain ⟨rounds, outcome, hread, hresult⟩ :=
        @readLocator_ends e content hshort 1 0 rfl (Nat.zero_le _) []
      refine ⟨rounds, outcome, hread, fun found hfound => ?_⟩
      subst hfound
      rcases hresult with hok | herror
      · exact Except.ok.inj hok
      · cases herror
  · constructor
    · rintro ⟨_, outcome, hread, hwhole⟩
      exact (hwhole [] (Option.some.inj hread).symm).symm
    · rintro rfl
      exact ⟨0, _, rfl, fun found hfound => (Except.ok.inj hfound).symm⟩

theorem requested_of_kind (hkind : pickStage r c = .ok kind) :
    (kind = .text → ∃ capacity, r = .chars capacity) ∧
    (kind = .binary → ∃ capacity, r = .bytes capacity) ∧
    ((kind = .wideText ∨ kind = .wideBinary) →
      kind = if c.dty.isWideText then .wideText else .wideBinary) := by
  unfold pickStage at hkind
  cases r <;> simp at hkind <;> grind

/-- A reader that hands an outcome on comes to the same end. -/
theorem outcome_map_iff {α : Type} {read : ℕ → Outcome α} {content : α} :
    (∃ rounds outcome, (read rounds).map (fun result => result.map some) = some outcome ∧
        ∀ found, outcome = .ok found → found = some content) ↔
      ∃ rounds outcome, read rounds = some outcome ∧ ∀ found, outcome = .ok found → found = content := by
  constructor
  · rintro ⟨rounds, outcome, hread, hwhole⟩
    obtain ⟨result, hresult, rfl⟩ := Option.map_eq_some_iff.mp hread
    refine ⟨rounds, result, hresult, fun found hfound => ?_⟩
    subst hfound
    exact Option.some.inj (hwhole (some found) rfl)
  · rintro ⟨rounds, result, hread, hwhole⟩
    refine ⟨rounds, result.map some, by rw [hread]; rfl, fun found hfound => ?_⟩
    obtain ⟨x, hx, rfl⟩ := map_eq_ok.mp hfound
    rw [hwhole x hx]

theorem readsWhole_locator_iff {content : List UInt8} {held : r.Slot}
    (hkind : slot.kind = if c.dty.isWideText then .wideText else .wideBinary)
    (hslot : s.wideSlot slot.position = .ok slot)
    (hstaged : slot.staged[row]? = some (.locator content))
    (hwide : slot.wideRows[row]? = some true) :
    ReadsWhole oci s slot row c (.lob content) r ⟨held, noTotal⟩ ↔ Fits oci c (.lob content) r := by
  have howed : slot.requireWide slot.position row = .ok () := by
    simp [ColumnSlot.requireWide, hwide]
  have hnull : noTotal ≠ nullIndicator := by decide
  cases r with
  | chars capacity =>
    have hasks : Place.asks (.chars capacity) ⟨held, noTotal⟩ = true := by simp [Place.asks]
    have hfinal : ∀ rounds,
        s.finalize oci rounds slot.position row (.chars capacity) ⟨held, noTotal⟩ =
          (if slot.kind = .wideText then readLocator .characterLob content rounds 1 []
            else some (.ok [])).map fun result => result.map some := by
      intro rounds
      rw [Statement.finalize, if_neg hnull, Statement.write, hasks, if_pos rfl,
        Statement.readLongText, readLong_locator oci _ _ _ hslot hstaged hwide]
    have hends := outcome_map_iff.trans (@locator_outcome_iff slot content .wideText .characterLob)
    have hfits : (if slot.kind = .wideText then content.length < 2 ^ 32 else content = []) ↔
        Fits oci c (.lob content) (.chars capacity) := by
      unfold Fits
      rw [hkind]
      cases c.dty.isWideText <;> simp
    refine Iff.trans ⟨?_, ?_⟩ (hends.trans hfits)
    · rintro ⟨⟨rounds, outcome, hread, hwhole⟩, -⟩
      exact ⟨rounds, outcome, (hfinal rounds).symm.trans hread, hwhole⟩
    · rintro ⟨rounds, outcome, hread, hwhole⟩
      exact ⟨⟨rounds, outcome, (hfinal rounds).trans hread, hwhole⟩, fun _ => howed⟩
  | bytes capacity =>
    have hasks : Place.asks (.bytes capacity) ⟨held, noTotal⟩ = true := by simp [Place.asks]
    have hfinal : ∀ rounds,
        s.finalize oci rounds slot.position row (.bytes capacity) ⟨held, noTotal⟩ =
          (if slot.kind = .wideBinary then readLocator .binaryLob content rounds 1 []
            else some (.ok [])).map fun result => result.map some := by
      intro rounds
      rw [Statement.finalize, if_neg hnull, Statement.write, hasks, if_pos rfl,
        Statement.readLongBytes, readLong_locator oci _ _ _ hslot hstaged hwide]
    have hends := outcome_map_iff.trans (@locator_outcome_iff slot content .wideBinary .binaryLob)
    have hfits : (if slot.kind = .wideBinary then content.length < 2 ^ 32 else content = []) ↔
        Fits oci c (.lob content) (.bytes capacity) := by
      unfold Fits
      rw [hkind]
      cases c.dty.isWideText <;> simp
    refine Iff.trans ⟨?_, ?_⟩ (hends.trans hfits)
    · rintro ⟨⟨rounds, outcome, hread, hwhole⟩, -⟩
      exact ⟨rounds, outcome, (hfinal rounds).symm.trans hread, hwhole⟩
    · rintro ⟨rounds, outcome, hread, hwhole⟩
      exact ⟨⟨rounds, outcome, (hfinal rounds).trans hread, hwhole⟩, fun _ => howed⟩
  | _ =>
    refine (readsWhole_fixed_iff oci ?_ hnull).trans Iff.rfl
    trivial

theorem cell_readsWhole_iff (hkind : pickStage r c = .ok slot.kind)
    (hsize : slot.rowSize = if slot.kind = .text ∨ slot.kind = .binary then
      stageWidth c r.capacity else 0)
    (hslot : s.wideSlot slot.position = .ok slot)
    (hdefine : oci.define c slot.kind slot.rowSize cell = some stage)
    (hstaged : slot.staged[row]? = some stage)
    (hfill : fillCell oci slot.rowSize stage r before = .ok (after, wide))
    (hwide : slot.wideRows[row]? = some wide) :
    ReadsWhole oci s slot row c cell r after ↔ Fits oci c cell r := by
  obtain ⟨htext, hbinary, hlocator⟩ := requested_of_kind hkind
  cases cell with
  | null =>
    obtain rfl := Option.some.inj hdefine
    obtain ⟨rfl, rfl⟩ := Prod.mk.inj (Except.ok.inj hfill)
    have hasks : Place.asks r ⟨before.slot, nullIndicator⟩ = false := by
      cases r with
      | chars capacity =>
        change (decide (nullIndicator = noTotal) || decide ((capacity : ℤ) - 1 < nullIndicator)) = false
        exact Bool.or_eq_false_iff.mpr ⟨by decide, decide_eq_false (by unfold nullIndicator; omega)⟩
      | bytes capacity =>
        change (decide (nullIndicator = noTotal) || decide ((capacity : ℤ) < nullIndicator)) = false
        exact Bool.or_eq_false_iff.mpr ⟨by decide, decide_eq_false (by unfold nullIndicator; omega)⟩
      | _ => rfl
    refine iff_of_true ⟨⟨0, .ok none, rfl, fun found hfound => (Except.ok.inj hfound).symm⟩, ?_⟩
      trivial
    rw [hasks]
    exact fun h => by cases h
  | scalar value =>
    have hscalar : ∀ {x : r.Slot}, Delivered oci c (.scalar value) r (some x) ↔
        Whole oci c value r x := by
      intro x
      constructor
      · rintro ⟨y, hy, hwhole⟩
        rwa [Option.some.inj hy]
      · exact fun hwhole => ⟨x, rfl, hwhole⟩
    cases hk : slot.kind with
    | number =>
      rw [hk] at hdefine hkind
      obtain ⟨q, hq, rfl⟩ := Option.map_eq_some_iff.mp hdefine
      obtain ⟨hfixed, hindicator, hiff⟩ := putNumber_spec oci hkind hq hfill
      rw [readsWhole_fixed_iff oci hfixed (by rw [hindicator]; decide), hscalar]
      exact hiff
    | text =>
      rw [hk] at hdefine
      obtain ⟨t, ht, rfl⟩ := Option.map_eq_some_iff.mp hdefine
      obtain ⟨capacity, rfl⟩ := htext hk
      have hwidth : slot.rowSize = stageWidth c capacity := by rw [hsize, hk]; rfl
      rw [readsWhole_chars_iff oci hslot hstaged rfl (Except.ok.inj hfill) hwide, hscalar]
      have hheld := @text_held_eq_iff V oci slot.rowSize t
      rw [hwidth] at hheld ⊢
      simp only [Whole, Fits, FitsStaging, ht, Option.some_inj]
      constructor
      · rintro ⟨hwhole, hne⟩
        refine ⟨⟨t, rfl, hheld.mp hwhole.symm⟩, fun hzero hnil => hne hzero ?_⟩
        rw [← hwhole, Option.some.inj hnil]
      · rintro ⟨⟨t', rfl, hfits⟩, hne⟩
        have hwhole := hheld.mpr hfits
        refine ⟨hwhole.symm, fun hzero hnil => hne hzero ?_⟩
        rw [← hwhole]
        exact congrArg some hnil
    | binary =>
      rw [hk] at hdefine
      obtain ⟨t, ht, rfl⟩ := Option.map_eq_some_iff.mp hdefine
      obtain ⟨capacity, rfl⟩ := hbinary hk
      have hwidth : slot.rowSize = stageWidth c capacity := by rw [hsize, hk]; rfl
      rw [readsWhole_bytes_iff oci hslot hstaged rfl (Except.ok.inj hfill) hwide, hscalar]
      have hheld := @text_held_eq_iff V oci slot.rowSize t
      rw [hwidth] at hheld ⊢
      simp only [Whole, Fits, FitsStaging, ht, Option.some_inj]
      constructor
      · exact fun hwhole => ⟨t, rfl, hheld.mp hwhole.symm⟩
      · rintro ⟨t', rfl, hfits⟩
        exact (hheld.mpr hfits).symm
    | date =>
      obtain ⟨date, hdate, rfl⟩ : ∃ date, oci.asDate c value = some date ∧ .date date = stage := by
        rw [hk] at hdefine
        exact Option.map_eq_some_iff.mp hdefine
      have hmoment := moment_of_stage oci hkind hdefine (.inl ⟨date, rfl, rfl⟩)
      obtain ⟨hfixed, hindicator, hiff⟩ := putParts_spec oci hmoment hfill
      rw [readsWhole_fixed_iff oci hfixed (by rw [hindicator]; decide), hscalar]
      exact hiff
    | timestamp =>
      obtain ⟨stamp, hstamp, rfl⟩ :
          ∃ stamp, oci.asTimestamp c value = some stamp ∧ .timestamp stamp = stage := by
        rw [hk] at hdefine
        exact Option.map_eq_some_iff.mp hdefine
      have hmoment := moment_of_stage oci hkind hdefine (.inr rfl)
      obtain ⟨hfixed, hindicator, hiff⟩ := putParts_spec oci hmoment hfill
      rw [readsWhole_fixed_iff oci hfixed (by rw [hindicator]; decide), hscalar]
      exact hiff
    | wideText =>
      rw [hk] at hdefine
      cases hdefine
    | wideBinary =>
      rw [hk] at hdefine
      cases hdefine
  | lob content =>
    have hwideKind : slot.kind = .wideText ∨ slot.kind = .wideBinary := by
      cases hk : slot.kind with
      | wideText => exact .inl rfl
      | wideBinary => exact .inr rfl
      | _ =>
        rw [hk] at hdefine
        cases hdefine
    have hstage : stage = .locator content := by
      rcases hwideKind with hk | hk <;> rw [hk] at hdefine <;> exact (Option.some.inj hdefine).symm
    subst hstage
    obtain ⟨rfl, rfl⟩ := Prod.mk.inj (Except.ok.inj hfill)
    exact readsWhole_locator_iff oci (hlocator hwideKind) hslot hstaged hwide

end Cell

/-- In every run, whatever was fetched before and whatever the places held: the reader of a cell
ends up with the whole value or an error, and no read that its indicator asks for is refused,
exactly for the cells that fit the buffer. -/
theorem oracle_reads_whole_iff {s s' : Statement V} (h : Reached oci s)
    (hfetch : s.fetch oci = .ok (some s')) {slot : ColumnSlot} (hslot : slot ∈ s'.slots)
    {column : DescribedColumn} (hcolumn : s'.described[slot.position - 1]? = some column) {row : ℕ}
    {cell : Cell V} (hcell : cellAt s'.block row slot.position = some cell) :
    ∃ place, slot.places[row]? = some place ∧
      (ReadsWhole oci s' slot row column cell slot.requested place ↔
        Fits oci column cell slot.requested) := by
  obtain ⟨hready, hrows⟩ := fetch_spec oci h.ready hfetch
  obtain ⟨stage, before, after, wide, hrow⟩ := hrows slot hslot row cell hcell
  have hbound := hready.bound slot hslot
  obtain rfl : slot.described = column := Option.some.inj (hbound.described.symm.trans hcolumn)
  exact ⟨after, hrow.place, cell_readsWhole_iff oci hbound.kind hbound.rowSize
    (hready.wideSlot hslot) hrow.defined hrow.staged hrow.filled hrow.wideRow⟩

end

open Classical in
/-- The conversions for texts that are no numbers. -/
noncomputable def textOci : Oci (List UInt8) where
  asNumber _ _ := none
  asText _ value := some value
  asBinary _ value := some value
  asDate _ _ := none
  asTimestamp _ _ := none
  numberToInt q :=
    if q.den = 1 ∧ -2 ^ 63 ≤ q.num ∧ q.num < 2 ^ 63 then some (Int64.ofInt q.num) else none
  numberToReal q := if IsDouble q then some q else none
  numberToText _ := none
  narrowed q := if IsFloat q then some q else none
  truncated size value := value.take size
  reported length := UInt16.ofNat length
  numberToInt_exact x := by
    have hrange : -2 ^ 63 ≤ x.toInt ∧ x.toInt < 2 ^ 63 := ⟨x.le_toInt, x.toInt_lt⟩
    rw [Rat.den_intCast, Rat.num_intCast, if_pos ⟨rfl, hrange⟩, Int64.ofInt_toInt]
  numberToReal_exact q h := if_pos h
  numberToReal_isDouble q r h := by
    split_ifs at h with hq
    exact Option.some.inj h ▸ hq
  narrowed_exact q h := if_pos h
  narrowed_isFloat q r h := by
    split_ifs at h with hq
    exact Option.some.inj h ▸ hq
  truncated_exact _ _ h := List.take_of_length_le h
  truncated_length size value := List.length_take_le size value
  reported_exact length h := by
    rw [UInt16.toNat_ofNat', Nat.mod_eq_of_lt h]

def clobColumn : DescribedColumn := ⟨.clob, 4000, 0, 0⟩

def clobQuery (r : Requested) (place : Place r) : Statement (List UInt8) :=
  ⟨true, [clobColumn], [[.lob [53]]], 1, 0, 0, [⟨1, r, clobColumn, .wideText, 0, [], [place], []⟩]⟩

def clobSlot (r : Requested) (held : r.Slot) : ColumnSlot :=
  ⟨1, r, clobColumn, .wideText, 0, [.locator [53]], [⟨held, noTotal⟩], [true]⟩

def fetchedClob (r : Requested) (held : r.Slot) : Statement (List UInt8) :=
  ⟨true, [clobColumn], [[.lob [53]]], 1, 1, 1, [clobSlot r held]⟩

theorem reached_clobQuery (r : Requested) (place : Place r) : Reached textOci (clobQuery r place) :=
  @Reached.bound _ textOci (.executed [clobColumn] [[.lob [53]]] 1) _ 1 r [place]
    (.executed _ _ _) rfl rfl

theorem fetch_clobQuery (r : Requested) (place : Place r) :
    (clobQuery r place).fetch textOci = .ok (some (fetchedClob r place.slot)) := rfl

/-- Read as characters, the CLOB is whole. -/
theorem clob_is_read_whole : ReadsWhole textOci (fetchedClob (.chars 8) []) (clobSlot (.chars 8) [])
    0 clobColumn (.lob [53]) (.chars 8) ⟨[], noTotal⟩ := by
  obtain ⟨place, hplace, hiff⟩ := @oracle_reads_whole_iff _ textOci _ _
    (reached_clobQuery (.chars 8) ⟨[], 0⟩) (fetch_clobQuery _ _) _ List.mem_cons_self clobColumn rfl 0
    (.lob [53]) rfl
  obtain rfl := Option.some.inj hplace
  exact hiff.mpr (by simp [Fits, clobColumn, Sqlt.isWideText, clobSlot])

/-- Read as an integer, it is the zero that the place held. -/
theorem clob_reads_as_zero : ¬ ∀ s s' : Statement (List UInt8), Reached textOci s →
    s.fetch textOci = .ok (some s') → ∀ slot ∈ s'.slots, ∀ row column cell,
      s'.described[slot.position - 1]? = some column →
      cellAt s'.block row slot.position = some cell →
      ∃ place, slot.places[row]? = some place ∧
        ReadsWhole textOci s' slot row column cell slot.requested place := by
  intro h
  obtain ⟨place, hplace, ⟨rounds, outcome, hread, hwhole⟩, -⟩ :=
    h _ _ (reached_clobQuery .int32 ⟨0, 0⟩) (fetch_clobQuery _ _) _ List.mem_cons_self 0 clobColumn
      (.lob [53]) rfl rfl
  obtain rfl := Option.some.inj hplace
  exact hwhole (some (0 : Int32)) (Option.some.inj hread).symm

end Uniorm.Oracle
