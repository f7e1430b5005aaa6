import Uniorm.Libpq.Reads

/-! # The value of a cell

Whatever the declared width of its column, a cell comes out as its text says: from its place when it
stands there whole, and by another read exactly when it is longer than its place has room for.
-/
namespace Uniorm.Libpq

open Foundation Schema Value

/-- A read returns a value after the given values were read again, or throws where there is none.
Nothing leaves the place of its row. -/
structure Yields {α : Type} (x : Reading α) (result : Option α) (long : List LongRead) : Prop where
  returns : ∀ a, result = some a → ∀ log, x log = (.ok a, log ++ long)
  throws : result = none → ∀ log, ∃ e, (x log).1 = .error e ∧ e ≠ .overrun

namespace Yields
variable {α β : Type} {x : Reading α} {f : α → Reading β} {a : α} {r : Option β}
  {long long' : List LongRead}

theorem of_returns (h : ∀ log, x log = (.ok a, log ++ long)) : Yields x (some a) long := by
  refine ⟨fun b hb log => ?_, fun hnone => by cases hnone⟩
  obtain rfl := Option.some.inj hb
  exact h log

theorem of_throws (h : ∀ log, ∃ e, (x log).1 = .error e ∧ e ≠ .overrun) : Yields x none long :=
  ⟨fun _ ha => absurd ha (by simp), fun _ => h⟩

theorem pure (a : α) : Yields (pure a : Reading α) (some a) [] := by
  apply of_returns
  intro log
  rw [List.append_nil]
  rfl

theorem throw {e : ReadError} (he : e ≠ .overrun) : Yields (Action.throw e : Reading α) none long :=
  of_throws fun _ => ⟨e, rfl, he⟩

theorem lift {y : Except ReadError α} (h : y = .ok a) : Yields (Action.lift y) (some a) [] := by
  apply of_returns
  intro log
  rw [List.append_nil, h]
  rfl

theorem bind (hx : Yields x (some a) long) (hf : Yields (f a) r long') :
    Yields (x >>= f) r (long ++ long') := by
  have hstep : ∀ log, (x >>= f) log = f a (log ++ long) := by
    intro log
    change Action.bind x f log = _
    rw [Action.bind, hx.returns a rfl log]
  refine ⟨fun b hb log => ?_, fun hnone log => ?_⟩
  · rw [hstep, hf.returns b hb, List.append_assoc]
  · rw [hstep]
    exact hf.throws hnone _

theorem bind_none (hx : Yields x none long) : Yields (x >>= f) none long' := by
  apply of_throws
  intro log
  obtain ⟨e, he, hne⟩ := hx.throws rfl log
  refine ⟨e, ?_, hne⟩
  change (Action.bind x f log).1 = _
  unfold Action.bind
  rcases hrun : x log with ⟨y, log'⟩
  rw [hrun] at he
  obtain rfl : y = .error e := he
  rfl

/-- What was taken from its place leaves no trace in the sequence. -/
theorem bind_nil (hx : Yields x (some a) []) (hf : Yields (f a) r long) : Yields (x >>= f) r long :=
  hx.bind hf

theorem bind_pure {g : α → β} (hx : Yields x (some a) long) :
    Yields (x >>= fun a => Pure.pure (g a)) (some (g a)) long := by
  have h := hx.bind (f := fun a => Pure.pure (g a)) (pure (g a))
  rwa [List.append_nil] at h

/-- What comes last reads nothing again. -/
theorem bind_nothing {r : Option α} {g : α → Option β} (hx : Yields x r long)
    (hf : ∀ a, Yields (f a) (g a) []) : Yields (x >>= f) (r.bind g) long := by
  cases r with
  | none => exact hx.bind_none
  | some a =>
    have h := hx.bind (hf a)
    rwa [List.append_nil] at h

theorem map {r : Option α} (g : α → β) (hx : Yields x r long) :
    Yields (x >>= fun a => Pure.pure (g a)) (r.map g) long := by
  cases r with
  | none => exact hx.bind_none
  | some a => exact hx.bind_pure

end Yields

section
variable (strtod : List UInt8 → Option (BitVec 64))

/-- A number of `bits` bits. -/
def intOf (bits : ℕ) (text : List UInt8) : Option Int64 :=
  (wholeInteger text >>= fun value => asWidth bits value 0 text).toOption

def typedValue : (t : PlainType) → PgType → List UInt8 → Option t.Carrier
  | .bool, _, text => (intOf 8 text).map fun value => decide (value ≠ 0)
  | .int16, _, text => (intOf 16 text).map Int64.toInt16
  | .int32, _, text => (intOf 32 text).map Int64.toInt32
  | .int64, _, text => (wholeInteger text).toOption
  | .double, _, text => strtod text
  | .string, _, text => some text
  | .bytes, native, text => (bytesOf text (native = .bytea)).toOption
  | .timestamp, native, text => some (makeTimestamp (partsOf text native))

def representedValue (u : Representable) (native : PgType) (text : List UInt8) : Option u.Carrier :=
  typedValue strtod u.dbType native text >>= u.decoded

def memberValue : (m : MemberType) → PgType → Option (List UInt8) → Option m.Carrier
  | .required u, native, some text => representedValue strtod u native text
  | .required _, _, none => none
  | .optional u, native, some text => (representedValue strtod u native text).map some
  | .optional _, _, none => some none

/-- What the text of a cell says to a `result_set`. -/
def dynamicValue (kind : SlotKind) (native : PgType) (text : List UInt8) : Option SqlValue :=
  match kind with
  | .boolean => (intOf 8 text).map fun value => .bool (value ≠ 0)
  | .integer => (wholeInteger text).toOption.map .int64
  | .floating => (strtod text).map .double
  | .text => some (.string text)
  | .bytes => (bytesOf text (native = .bytea)).toOption.map .bytes
  | .ts => some (.timestamp (makeTimestamp (partsOf text native)))
  | .dt =>
    let parts := partsOf text native
    some (.timestamp (makeTimestamp ⟨parts.year, parts.month, parts.day, 0, 0, 0, 0⟩))
  | .tm =>
    let parts := partsOf text native
    some (.timestamp (makeTimestamp ⟨1970, 1, 1, parts.hour, parts.minute, parts.second, 0⟩))

def cellValue (kind : SlotKind) (native : PgType) : Option (List UInt8) → Option SqlValue
  | some text => dynamicValue strtod kind native text
  | none => some .null

def tooLong (shape : BufferKind × ℕ) (native : PgType) (text : List UInt8) : Bool :=
  match shape.1 with
  | .chars => shape.2 - 1 < text.length
  | .bytes =>
    match bytesOf text (native = .bytea) with
    | .ok held => shape.2 < held.length
    | .error _ => false
  | _ => false

def longRead (shape : BufferKind × ℕ) (native : PgType) (tuple column : ℕ) :
    Option (List UInt8) → List LongRead
  | some text => if tooLong shape native text then [⟨tuple, column⟩] else []
  | none => []

structure Statement.Placed (s : Statement) (field row : ℕ) (b : ColumnBuffer) : Prop where
  slot : s.slots[field]? = some (some b)
  inFields : field < s.answer.fields.length
  inRows : row < b.rows
  roomy : b.Roomy
  holds : ∃ content, s.content strtod field b row = .ok content ∧ b.Holds row content

variable {strtod} {s : Statement} {field row : ℕ} {b : ColumnBuffer} {text : List UInt8}

namespace Statement.Placed
variable (h : s.Placed strtod field row b)
include h

theorem bufferAt : s.bufferAt (field + 1) = .ok b := by
  unfold Statement.bufferAt
  rw [Nat.add_sub_cancel, h.slot]
  rfl

theorem slotFor : s.slotFor (field + 1) = .ok b := by
  unfold Statement.slotFor
  rw [Nat.add_sub_cancel, h.slot]
  rfl

theorem cellText : s.cellText (field + 1) row =
    .ok ((s.answer.cell (s.blockStart + row) field).getD []) := by
  have hfield := h.inFields
  unfold Statement.cellText
  rw [if_neg (by omega), Nat.add_sub_cancel]

theorem indicatorAt {content : List UInt8 × ℤ} (hcontent : b.Holds row content) :
    s.indicatorAt (field + 1) row = .ok content.2 := by
  unfold Statement.indicatorAt
  rw [h.bufferAt]
  change b.indicatorAt row = _
  rw [ColumnBuffer.indicatorAt, if_pos h.inRows, hcontent.indicator]

theorem take {content : List UInt8 × ℤ} (hcontent : b.Holds row content) :
    b.take row content.1.length = .ok content.1 := by
  rw [ColumnBuffer.take, if_pos ⟨h.inRows, hcontent.length⟩, hcontent.bytes]

theorem takeAt {content : List UInt8 × ℤ} (hcontent : b.Holds row content) :
    s.takeAt (field + 1) row content.1.length = .ok content.1 := by
  unfold Statement.takeAt
  rw [h.bufferAt]
  exact h.take hcontent

theorem readLongText (hcell : s.answer.cell (s.blockStart + row) field = some text) :
    Yields (s.readLongText (field + 1) row) (some text) [⟨s.blockStart + row, field + 1⟩] := by
  apply Yields.of_returns
  intro log
  unfold Statement.readLongText
  rw [h.slotFor, h.cellText, hcell]
  rfl

theorem readLongBytes (hcell : s.answer.cell (s.blockStart + row) field = some text)
    {held : List UInt8} (hheld : bytesOf text (s.answer.native field = .bytea) = .ok held) :
    Yields (s.readLongBytes (field + 1) row) (some held) [⟨s.blockStart + row, field + 1⟩] := by
  apply Yields.of_returns
  intro log
  unfold Statement.readLongBytes
  rw [h.slotFor, h.cellText, hcell, Option.getD_some, Nat.add_sub_cancel]
  change (bytesOf text (s.answer.native field = .bytea), log ++ [_]) = _
  rw [hheld]

end Statement.Placed

/-- A text stands in its place, or the indicator says that it does not. -/
theorem putText_spec {capacity : ℕ} (hcapacity : 1 ≤ capacity) (text : List UInt8) :
    0 ≤ (putText capacity text).2 ∧
      ((capacity : ℤ) - 1 < (putText capacity text).2 ↔ capacity - 1 < text.length) ∧
      (text.length ≤ capacity - 1 → putText capacity text = (text, (text.length : ℤ))) := by
  unfold putText
  refine ⟨?_, ?_, ?_⟩
  · simp only
    split <;> omega
  · simp only
    split <;> omega
  · intro hfits
    simp only [Nat.min_eq_left hfits, List.take_length, lt_irrefl, if_false]

theorem putBytes_spec (capacity : ℕ) (held : List UInt8) :
    0 ≤ (putBytes capacity held).2 ∧
      ((capacity : ℤ) < (putBytes capacity held).2 ↔ capacity < held.length) ∧
      (held.length ≤ capacity → putBytes capacity held = (held, (held.length : ℤ))) := by
  unfold putBytes
  refine ⟨?_, ?_, ?_⟩
  · simp only
    split <;> omega
  · simp only
    split <;> omega
  · intro hfits
    simp only [Nat.min_eq_left hfits, List.take_length, lt_irrefl, if_false]

/-- A read of a text, by whatever test agrees that a negative indicator does not occur. -/
theorem Statement.Placed.text_spec (h : s.Placed strtod field row b) (hkind : b.kind = .chars)
    (hcell : s.answer.cell (s.blockStart + row) field = some text) (negative : ℤ → Prop)
    [DecidablePred negative] (hnegative : ∀ ind, 0 ≤ ind → ¬negative ind) :
    Yields (do
        let b ← Action.lift (s.bufferAt (field + 1))
        let ind ← Action.lift (b.indicatorAt row)
        if negative ind ∨ (b.capacity : ℤ) - 1 < ind then s.readLongText (field + 1) row
        else Action.lift (b.take row ind.toNat))
      (some text)
      (longRead b.shape (s.answer.native field) (s.blockStart + row) (field + 1) (some text)) := by
  obtain ⟨content, hcontent, hholds⟩ := h.holds
  have hput : content = putText b.capacity text := by
    unfold Statement.content cellContent at hcontent
    rw [hcell] at hcontent
    simp only [cellBytes, hkind] at hcontent
    exact (Except.ok.inj hcontent).symm
  have hcapacity : 1 ≤ b.capacity := by
    have hroomy := h.roomy
    unfold ColumnBuffer.Roomy at hroomy
    rwa [hkind] at hroomy
  obtain ⟨hnonneg, hlong, hfits⟩ := putText_spec hcapacity text
  have hind : b.indicatorAt row = .ok content.2 := by
    rw [ColumnBuffer.indicatorAt, if_pos h.inRows, hholds.indicator]
  apply (Yields.lift h.bufferAt).bind_nil
  apply (Yields.lift hind).bind_nil
  rw [hput]
  have hlongRead : longRead b.shape (s.answer.native field) (s.blockStart + row) (field + 1) (some text) =
      if b.capacity - 1 < text.length then [⟨s.blockStart + row, field + 1⟩] else [] := by
    unfold longRead tooLong
    simp only [ColumnBuffer.shape, hkind, decide_eq_true_eq]
  rw [hlongRead]
  by_cases hlt : b.capacity - 1 < text.length
  · rw [if_pos (.inr (hlong.mpr hlt)), if_pos hlt]
    exact h.readLongText hcell
  · rw [if_neg (by
      rintro (hneg | hbad)
      · exact hnegative _ hnonneg hneg
      · exact hlt (hlong.mp hbad)), if_neg hlt]
    apply Yields.lift
    have htake := h.take hholds
    rw [hput, hfits (Nat.le_of_not_lt hlt)] at htake
    rw [hfits (Nat.le_of_not_lt hlt), Int.toNat_natCast]
    exact htake

theorem Statement.Placed.bytes_spec (h : s.Placed strtod field row b) (hkind : b.kind = .bytes)
    (hcell : s.answer.cell (s.blockStart + row) field = some text) (negative : ℤ → Prop)
    [DecidablePred negative] (hnegative : ∀ ind, 0 ≤ ind → ¬negative ind) :
    Yields (do
        let b ← Action.lift (s.bufferAt (field + 1))
        let ind ← Action.lift (b.indicatorAt row)
        if negative ind ∨ (b.capacity : ℤ) < ind then s.readLongBytes (field + 1) row
        else Action.lift (b.take row ind.toNat))
      (bytesOf text (s.answer.native field = .bytea)).toOption
      (longRead b.shape (s.answer.native field) (s.blockStart + row) (field + 1) (some text)) := by
  obtain ⟨content, hcontent, hholds⟩ := h.holds
  unfold Statement.content cellContent at hcontent
  rw [hcell] at hcontent
  simp only [cellBytes, hkind] at hcontent
  obtain ⟨held, hheld, hput⟩ := bind_eq_ok.mp hcontent
  obtain rfl : putBytes b.capacity held = content := Except.ok.inj hput
  obtain ⟨hnonneg, hlong, hfits⟩ := putBytes_spec b.capacity held
  have hind : b.indicatorAt row = .ok (putBytes b.capacity held).2 := by
    rw [ColumnBuffer.indicatorAt, if_pos h.inRows, hholds.indicator]
  have hlongRead : longRead b.shape (s.answer.native field) (s.blockStart + row) (field + 1) (some text) =
      if b.capacity < held.length then [⟨s.blockStart + row, field + 1⟩] else [] := by
    unfold longRead tooLong
    simp only [ColumnBuffer.shape, hkind, hheld, decide_eq_true_eq]
  rw [hheld, hlongRead]
  apply (Yields.lift h.bufferAt).bind_nil
  apply (Yields.lift hind).bind_nil
  by_cases hlt : b.capacity < held.length
  · rw [if_pos (.inr (hlong.mpr hlt)), if_pos hlt]
    exact h.readLongBytes hcell hheld
  · rw [if_neg (by
      rintro (hneg | hbad)
      · exact hnegative _ hnonneg hneg
      · exact hlt (hlong.mp hbad)), if_neg hlt]
    apply Yields.lift
    have htake := h.take hholds
    rw [hfits (Nat.le_of_not_lt hlt)] at htake
    rw [hfits (Nat.le_of_not_lt hlt), Int.toNat_natCast]
    exact htake

/-- The low bytes of a number in the range of a destination. -/
theorem putInteger_eq_ok {width column : ℕ} {content : List UInt8 × ℤ}
    (h : putInteger width column text = .ok content) :
    ∃ value, intOf (8 * width) text = some value ∧
      content.1 = toLittleEndian width value.toBitVec.toNat ∧
      -2 ^ (8 * width - 1) ≤ value.toInt ∧ value.toInt < 2 ^ (8 * width - 1) := by
  obtain ⟨value, hvalue, h⟩ := bind_eq_ok.mp h
  obtain ⟨value', hwidth, h⟩ := bind_eq_ok.mp h
  obtain rfl := Except.ok.inj h
  unfold asWidth at hwidth
  split at hwidth
  · rename_i hrange
    obtain rfl := Except.ok.inj hwidth
    refine ⟨value, ?_, rfl, hrange⟩
    rw [intOf, hvalue]
    change (asWidth (8 * width) value 0 text).toOption = _
    rw [asWidth, if_pos hrange]
    rfl
  · cases hwidth

theorem intOf_of_error {width column : ℕ} {e : ReadError}
    (h : putInteger width column text = .error e) : intOf (8 * width) text = none := by
  unfold intOf
  unfold putInteger at h
  cases hvalue : wholeInteger text with
  | error e' => rfl
  | ok value =>
    rw [hvalue] at h
    change (asWidth (8 * width) value 0 text).toOption = none
    change (asWidth (8 * width) value column text >>= _) = _ at h
    unfold asWidth at h ⊢
    split at h
    · cases h
    · rename_i hrange
      rw [if_neg hrange]
      rfl

theorem Statement.Placed.writeFixed_spec (h : s.Placed strtod field row b)
    {content : List UInt8 × ℤ} (hholds : b.Holds row content) {width : ℕ}
    (hwidth : content.1.length = width) :
    Yields (s.writeFixed width (field + 1) row) (some (fromLittleEndian content.1)) [] := by
  subst hwidth
  exact (Yields.lift (h.takeAt hholds)).bind_pure

theorem ofNat_low_bytes {w width : ℕ} (hw : 256 ^ width = 2 ^ w) (n : ℕ) :
    BitVec.ofNat w (fromLittleEndian (toLittleEndian width n)) = BitVec.ofNat w n := by
  rw [fromLittleEndian_toLittleEndian_mod, hw]
  apply BitVec.eq_of_toNat_eq
  rw [BitVec.toNat_ofNat, BitVec.toNat_ofNat, Nat.mod_mod]

theorem toInt16_low_bytes (value : Int64) :
    Int16.ofBitVec (BitVec.ofNat 16 (fromLittleEndian (toLittleEndian 2 value.toBitVec.toNat))) =
      value.toInt16 := by
  rw [ofNat_low_bytes (by norm_num), BitVec.ofNat_toNat, ← BitVec.signExtend_eq_setWidth_of_le _ (by omega),
    Int16.ofBitVec_int64ToBitVec]

theorem toInt32_low_bytes (value : Int64) :
    Int32.ofBitVec (BitVec.ofNat 32 (fromLittleEndian (toLittleEndian 4 value.toBitVec.toNat))) =
      value.toInt32 := by
  rw [ofNat_low_bytes (by norm_num), BitVec.ofNat_toNat, ← BitVec.signExtend_eq_setWidth_of_le _ (by omega),
    Int32.ofBitVec_int64ToBitVec]

theorem toInt64_low_bytes (value : Int64) :
    Int64.ofBitVec (BitVec.ofNat 64 (fromLittleEndian (toLittleEndian 8 value.toBitVec.toNat))) =
      value := by
  rw [ofNat_low_bytes (by norm_num), BitVec.ofNat_toNat, BitVec.setWidth_eq, Int64.ofBitVec_toBitVec]

theorem low_byte_ne_zero {value : Int64} (hlow : -2 ^ 7 ≤ value.toInt) (hhigh : value.toInt < 2 ^ 7) :
    decide (fromLittleEndian (toLittleEndian 1 value.toBitVec.toNat) ≠ 0) = decide (value ≠ 0) := by
  rw [fromLittleEndian_toLittleEndian_mod, decide_eq_decide, not_iff_not]
  have hzero : value = 0 ↔ value.toInt = 0 := by
    rw [← Int64.toInt_inj, Int64.toInt_zero]
  rw [hzero, ← Int64.toInt_toBitVec, BitVec.toInt_eq_toNat_cond]
  rw [← Int64.toInt_toBitVec, BitVec.toInt_eq_toNat_cond] at hlow hhigh
  have hlt := value.toBitVec.isLt
  split_ifs at * <;> omega

variable {t : PlainType}

theorem Statement.Placed.cellBytes_eq (h : s.Placed strtod field row b)
    (hcell : s.answer.cell (s.blockStart + row) field = some text) :
    ∃ content, cellBytes strtod b (field + 1) (s.answer.native field) text = .ok content ∧
      b.Holds row content := by
  obtain ⟨content, hcontent, hholds⟩ := h.holds
  unfold Statement.content cellContent at hcontent
  rw [hcell] at hcontent
  exact ⟨content, hcontent, hholds⟩

theorem longRead_of_fixed {native : PgType} {tuple column : ℕ} {cell : Option (List UInt8)}
    (hchars : b.kind ≠ .chars) (hbytes : b.kind ≠ .bytes) :
    longRead b.shape native tuple column cell = [] := by
  cases cell with
  | none => rfl
  | some text =>
    have hfits : tooLong b.shape native text = false := by
      unfold tooLong ColumnBuffer.shape
      cases hkind : b.kind <;> simp_all
    rw [longRead, hfits]
    rfl

theorem Statement.Placed.integer_spec (h : s.Placed strtod field row b) {width : ℕ}
    (hcell : s.answer.cell (s.blockStart + row) field = some text)
    (hput : cellBytes strtod b (field + 1) (s.answer.native field) text =
      putInteger width (field + 1) text) :
    ∃ value, intOf (8 * width) text = some value ∧
      -2 ^ (8 * width - 1) ≤ value.toInt ∧ value.toInt < 2 ^ (8 * width - 1) ∧
      Yields (s.writeFixed width (field + 1) row)
        (some (fromLittleEndian (toLittleEndian width value.toBitVec.toNat))) [] := by
  obtain ⟨content, hcontent, hholds⟩ := h.cellBytes_eq hcell
  rw [hput] at hcontent
  obtain ⟨value, hvalue, hbytes, hlow, hhigh⟩ := putInteger_eq_ok hcontent
  refine ⟨value, hvalue, hlow, hhigh, ?_⟩
  rw [← hbytes]
  apply h.writeFixed_spec hholds
  rw [hbytes, length_toLittleEndian]

theorem Statement.Placed.int64_spec (h : s.Placed strtod field row b) (hkind : b.kind = .int64)
    (hcell : s.answer.cell (s.blockStart + row) field = some text) :
    ∃ value, wholeInteger text = .ok value ∧
      Yields (s.writeFixed 8 (field + 1) row)
        (some (fromLittleEndian (toLittleEndian 8 value.toBitVec.toNat))) [] := by
  obtain ⟨content, hcontent, hholds⟩ := h.cellBytes_eq hcell
  simp only [cellBytes, hkind] at hcontent
  obtain ⟨value, hvalue, hput⟩ := bind_eq_ok.mp hcontent
  obtain rfl := Except.ok.inj hput
  exact ⟨value, hvalue, h.writeFixed_spec hholds (length_toLittleEndian _ _)⟩

theorem Statement.Placed.float64_spec (h : s.Placed strtod field row b) (hkind : b.kind = .float64)
    (hcell : s.answer.cell (s.blockStart + row) field = some text) :
    ∃ value, strtod text = some value ∧
      Yields (s.writeFixed 8 (field + 1) row)
        (some (fromLittleEndian (toLittleEndian 8 value.toNat))) [] := by
  obtain ⟨content, hcontent, hholds⟩ := h.cellBytes_eq hcell
  simp only [cellBytes, hkind] at hcontent
  cases hvalue : strtod text with
  | none =>
    rw [hvalue] at hcontent
    cases hcontent
  | some value =>
    rw [hvalue] at hcontent
    obtain rfl := Except.ok.inj hcontent
    exact ⟨value, rfl, h.writeFixed_spec hholds (length_toLittleEndian _ _)⟩

theorem Statement.Placed.parts_spec (h : s.Placed strtod field row b)
    (hkind : b.kind = .timestampParts)
    (hcell : s.answer.cell (s.blockStart + row) field = some text) :
    s.takeAt (field + 1) row 16 = .ok (partsOf text (s.answer.native field)).toBytes := by
  obtain ⟨content, hcontent, hholds⟩ := h.cellBytes_eq hcell
  simp only [cellBytes, hkind] at hcontent
  obtain rfl := Except.ok.inj hcontent
  have htake := h.takeAt hholds
  rwa [TimestampParts.length_toBytes] at htake

theorem Statement.Placed.write_spec (h : s.Placed strtod field row b) (hkind : b.kind = fieldKind t)
    (hcell : s.answer.cell (s.blockStart + row) field = some text) :
    Yields (s.write t (field + 1) row) (typedValue strtod t (s.answer.native field) text)
      (longRead b.shape (s.answer.native field) (s.blockStart + row) (field + 1) (some text)) := by
  have hfixed : fieldKind t ≠ .chars → fieldKind t ≠ .bytes →
      longRead b.shape (s.answer.native field) (s.blockStart + row) (field + 1) (some text) = [] := by
    intro hchars hbytes
    rw [← hkind] at hchars hbytes
    exact longRead_of_fixed hchars hbytes
  have hcellBytes : ∀ kind, b.kind = kind → cellBytes strtod b (field + 1) (s.answer.native field) text =
      cellBytes strtod { b with kind := kind } (field + 1) (s.answer.native field) text := by
    rintro kind rfl
    rfl
  cases t with
  | bool =>
    rw [hfixed (by decide) (by decide)]
    obtain ⟨value, hvalue, hlow, hhigh, hread⟩ := h.integer_spec hcell (hcellBytes _ hkind)
    rw [typedValue, hvalue, Option.map_some, ← low_byte_ne_zero hlow hhigh]
    exact hread.bind_pure
  | int16 =>
    rw [hfixed (by decide) (by decide)]
    obtain ⟨value, hvalue, -, -, hread⟩ := h.integer_spec hcell (hcellBytes _ hkind)
    rw [typedValue, hvalue, Option.map_some, ← toInt16_low_bytes]
    exact hread.bind_pure
  | int32 =>
    rw [hfixed (by decide) (by decide)]
    obtain ⟨value, hvalue, -, -, hread⟩ := h.integer_spec hcell (hcellBytes _ hkind)
    rw [typedValue, hvalue, Option.map_some, ← toInt32_low_bytes]
    exact hread.bind_pure
  | int64 =>
    rw [hfixed (by decide) (by decide)]
    obtain ⟨value, hvalue, hread⟩ := h.int64_spec hkind hcell
    have hback := hread.bind_pure (g := fun n => Int64.ofBitVec (BitVec.ofNat 64 n))
    rw [toInt64_low_bytes] at hback
    rw [typedValue, hvalue]
    exact hback
  | double =>
    rw [hfixed (by decide) (by decide)]
    obtain ⟨value, hvalue, hread⟩ := h.float64_spec hkind hcell
    have hback := hread.bind_pure (g := fun n => BitVec.ofNat 64 n)
    rw [ofNat_fromLittleEndian (by norm_num)] at hback
    rw [typedValue, hvalue]
    exact hback
  | string => exact h.text_spec hkind hcell (· = noTotal) (by intro ind hind; unfold noTotal; omega)
  | bytes => exact h.bytes_spec hkind hcell (· = noTotal) (by intro ind hind; unfold noTotal; omega)
  | timestamp =>
    rw [hfixed (by decide) (by decide)]
    have hread := (Yields.lift (h.parts_spec hkind hcell)).bind_pure
      (g := fun bytes => makeTimestamp (TimestampParts.ofBytes bytes))
    rw [TimestampParts.ofBytes_toBytes (fits_partsOf _ _)] at hread
    exact hread

/-- The indicator of a value is no mark of NULL. -/
theorem cellBytes_indicator {column : ℕ} {native : PgType} {content : List UInt8 × ℤ}
    (hb : b.Roomy) (h : cellBytes strtod b column native text = .ok content) :
    content.2 ≠ nullIndicator := by
  have hzero : (0 : ℤ) ≠ nullIndicator := by decide
  have hnonneg : ∀ ind : ℤ, 0 ≤ ind → ind ≠ nullIndicator := by
    intro ind hind
    unfold nullIndicator
    omega
  have hint : ∀ width, putInteger width column text = .ok content → content.2 ≠ nullIndicator := by
    intro width h
    obtain ⟨value, -, h⟩ := bind_eq_ok.mp h
    obtain ⟨value', -, h⟩ := bind_eq_ok.mp h
    obtain rfl := Except.ok.inj h
    exact hzero
  unfold ColumnBuffer.Roomy at hb
  unfold cellBytes at h
  cases hkind : b.kind with
  | chars =>
    rw [hkind] at h hb
    obtain rfl := Except.ok.inj h
    exact hnonneg _ (putText_spec hb text).1
  | bytes =>
    rw [hkind] at h
    obtain ⟨held, -, h⟩ := bind_eq_ok.mp h
    obtain rfl := Except.ok.inj h
    exact hnonneg _ (putBytes_spec _ held).1
  | bit =>
    rw [hkind] at h
    exact hint 1 h
  | int16 =>
    rw [hkind] at h
    exact hint 2 h
  | int32 =>
    rw [hkind] at h
    exact hint 4 h
  | int64 =>
    rw [hkind] at h
    obtain ⟨value, -, h⟩ := bind_eq_ok.mp h
    obtain rfl := Except.ok.inj h
    exact hzero
  | float64 =>
    rw [hkind] at h
    simp only at h
    cases hvalue : strtod text with
    | none =>
      rw [hvalue] at h
      cases h
    | some value =>
      rw [hvalue] at h
      obtain rfl := Except.ok.inj h
      exact hzero
  | timestampParts | dateParts | timeParts =>
    rw [hkind] at h
    obtain rfl := Except.ok.inj h
    exact hzero

theorem Statement.Placed.indicator_spec (h : s.Placed strtod field row b) :
    ∃ ind, s.indicatorAt (field + 1) row = .ok ind ∧
      (ind = nullIndicator ↔ s.answer.cell (s.blockStart + row) field = none) := by
  obtain ⟨content, hcontent, hholds⟩ := h.holds
  refine ⟨content.2, h.indicatorAt hholds, ?_⟩
  unfold Statement.content cellContent at hcontent
  cases hcell : s.answer.cell (s.blockStart + row) field with
  | none =>
    rw [hcell] at hcontent
    obtain rfl := Except.ok.inj hcontent
    exact ⟨fun _ => rfl, fun _ => rfl⟩
  | some text =>
    rw [hcell] at hcontent
    have hne := cellBytes_indicator h.roomy hcontent
    exact ⟨fun heq => absurd heq hne, fun heq => by cases heq⟩

/-- `finalize` gives a member what the cell says to it. -/
theorem Statement.Placed.finalizeRequired_spec (h : s.Placed strtod field row b) (u : Representable)
    (hkind : b.kind = fieldKind u.dbType)
    (hcell : s.answer.cell (s.blockStart + row) field = some text) :
    Yields (s.finalizeRequired u (field + 1) row)
      (representedValue strtod u (s.answer.native field) text)
      (longRead b.shape (s.answer.native field) (s.blockStart + row) (field + 1) (some text)) := by
  obtain ⟨ind, hind, hnull⟩ := h.indicator_spec
  have hvalue : ind ≠ nullIndicator := by
    intro heq
    rw [hnull.mp heq] at hcell
    cases hcell
  have hwrite := h.write_spec hkind hcell
  unfold Statement.finalizeRequired
  apply (Yields.lift hind).bind_nil
  rw [if_neg hvalue]
  apply hwrite.bind_nothing
  intro slot
  cases u.decoded slot with
  | some value => exact Yields.pure value
  | none => exact Yields.throw (by decide)

theorem Statement.Placed.finalize_spec (h : s.Placed strtod field row b) (m : MemberType)
    (hkind : b.kind = fieldKind m.representable.dbType) :
    Yields (s.finalize m (field + 1) row)
      (memberValue strtod m (s.answer.native field) (s.answer.cell (s.blockStart + row) field))
      (longRead b.shape (s.answer.native field) (s.blockStart + row) (field + 1)
        (s.answer.cell (s.blockStart + row) field)) := by
  obtain ⟨ind, hind, hnull⟩ := h.indicator_spec
  cases m with
  | required u =>
    cases hcell : s.answer.cell (s.blockStart + row) field with
    | none =>
      unfold Statement.finalize Statement.finalizeRequired
      apply (Yields.lift hind).bind_nil
      rw [if_pos (hnull.mpr hcell)]
      exact Yields.throw (by decide)
    | some text => exact h.finalizeRequired_spec u hkind hcell
  | optional u =>
    unfold Statement.finalize
    apply (Yields.lift hind).bind_nil
    cases hcell : s.answer.cell (s.blockStart + row) field with
    | none =>
      rw [if_pos (hnull.mpr hcell)]
      exact Yields.pure none
    | some text =>
      rw [if_neg (fun heq => by rw [hnull.mp heq] at hcell; cases hcell)]
      exact (h.finalizeRequired_spec u hkind hcell).map some

theorem dateOf_packFields {parts : TimestampParts} (h : parts.Fits) :
    dateOf (packFields [(2, (BitVec.ofInt 16 parts.year).toNat), (2, parts.month), (2, parts.day)]) =
      makeTimestamp ⟨parts.year, parts.month, parts.day, 0, 0, 0, 0⟩ := by
  have hword := (BitVec.ofInt 16 parts.year).isLt
  have hyear : (BitVec.ofInt 16 parts.year).toInt = parts.year := by
    rw [BitVec.toInt_ofInt]
    exact Int.bmod_eq_of_le h.year.1 h.year.2
  have hunpack := @unpackFields_packFields
    [(2, (BitVec.ofInt 16 parts.year).toNat), (2, parts.month), (2, parts.day)] (by
      simp only [List.forall_mem_cons, List.not_mem_nil, false_imp_iff, implies_true, and_true]
      exact ⟨hword, h.month, h.day⟩)
  unfold dateOf
  simp only [List.map_cons, List.map_nil] at hunpack
  rw [hunpack]
  simp only [BitVec.ofNat_toNat, BitVec.setWidth_eq, hyear]

theorem clockOf_packFields {parts : TimestampParts} (h : parts.Fits) :
    clockOf (packFields [(2, parts.hour), (2, parts.minute), (2, parts.second)]) =
      makeTimestamp ⟨1970, 1, 1, parts.hour, parts.minute, parts.second, 0⟩ := by
  have hunpack := @unpackFields_packFields
    [(2, parts.hour), (2, parts.minute), (2, parts.second)] (by
      simp only [List.forall_mem_cons, List.not_mem_nil, false_imp_iff, implies_true, and_true]
      exact ⟨h.hour, h.minute, h.second⟩)
  unfold clockOf
  simp only [List.map_cons, List.map_nil] at hunpack
  rw [hunpack]

/-- The date and the clock of a cell, as far as a `result_set` takes them apart. -/
theorem Statement.Placed.six_spec (h : s.Placed strtod field row b)
    (hcell : s.answer.cell (s.blockStart + row) field = some text) {bytes : List UInt8}
    (hput : cellBytes strtod b (field + 1) (s.answer.native field) text = .ok (bytes, 0))
    (hlength : bytes.length = 6) : s.takeAt (field + 1) row 6 = .ok bytes := by
  obtain ⟨content, hcontent, hholds⟩ := h.cellBytes_eq hcell
  rw [hput] at hcontent
  obtain rfl := Except.ok.inj hcontent
  have htake := h.takeAt hholds
  rwa [hlength] at htake

/-- A `result_set` makes of a place what the cell says to it. -/
theorem Statement.Placed.valueOf_spec (h : s.Placed strtod field row b) (kind : SlotKind)
    (hkind : b.kind = kind.bufferKind) :
    Yields (s.valueOf kind (field + 1) row)
      (cellValue strtod kind (s.answer.native field) (s.answer.cell (s.blockStart + row) field))
      (longRead b.shape (s.answer.native field) (s.blockStart + row) (field + 1)
        (s.answer.cell (s.blockStart + row) field)) := by
  obtain ⟨ind, hind, hnull⟩ := h.indicator_spec
  unfold Statement.valueOf
  apply (Yields.lift hind).bind_nil
  cases hcell : s.answer.cell (s.blockStart + row) field with
  | none =>
    rw [if_pos (hnull.mpr hcell)]
    exact Yields.pure _
  | some text =>
    rw [if_neg (fun heq => by rw [hnull.mp heq] at hcell; cases hcell)]
    have hfixed : kind.bufferKind ≠ .chars → kind.bufferKind ≠ .bytes →
        longRead b.shape (s.answer.native field) (s.blockStart + row) (field + 1) (some text) = [] := by
      intro hchars hbytes
      rw [← hkind] at hchars hbytes
      exact longRead_of_fixed hchars hbytes
    have hcellBytes : ∀ kind, b.kind = kind →
        cellBytes strtod b (field + 1) (s.answer.native field) text =
          cellBytes strtod { b with kind := kind } (field + 1) (s.answer.native field) text := by
      rintro kind rfl
      rfl
    cases kind with
    | boolean =>
      rw [hfixed (by decide) (by decide)]
      obtain ⟨value, hvalue, hlow, hhigh, hread⟩ := h.integer_spec hcell (hcellBytes _ hkind)
      rw [cellValue, dynamicValue, hvalue, Option.map_some, ← low_byte_ne_zero hlow hhigh]
      exact hread.bind_pure
    | integer =>
      rw [hfixed (by decide) (by decide)]
      obtain ⟨value, hvalue, hread⟩ := h.int64_spec hkind hcell
      have hback := hread.bind_pure (g := fun n => SqlValue.int64 (Int64.ofBitVec (BitVec.ofNat 64 n)))
      rw [toInt64_low_bytes] at hback
      rw [cellValue, dynamicValue, hvalue]
      exact hback
    | floating =>
      rw [hfixed (by decide) (by decide)]
      obtain ⟨value, hvalue, hread⟩ := h.float64_spec hkind hcell
      have hback := hread.bind_pure (g := fun n => SqlValue.double (BitVec.ofNat 64 n))
      rw [ofNat_fromLittleEndian (by norm_num)] at hback
      rw [cellValue, dynamicValue, hvalue]
      exact hback
    | text =>
      have hread := h.text_spec hkind hcell (· < 0) (by intro ind hind; omega)
      exact hread.map SqlValue.string
    | bytes =>
      have hread := h.bytes_spec hkind hcell (· < 0) (by intro ind hind; omega)
      exact hread.map SqlValue.bytes
    | ts =>
      rw [hfixed (by decide) (by decide)]
      have hread := (Yields.lift (h.parts_spec hkind hcell)).bind_pure
        (g := fun bytes => SqlValue.timestamp (makeTimestamp (TimestampParts.ofBytes bytes)))
      rw [TimestampParts.ofBytes_toBytes (fits_partsOf _ _)] at hread
      exact hread
    | dt =>
      rw [hfixed (by decide) (by decide)]
      have hbytes := h.six_spec hcell (hcellBytes _ hkind) rfl
      have hread := (Yields.lift hbytes).bind_pure (g := fun bytes => SqlValue.timestamp (dateOf bytes))
      rw [dateOf_packFields (fits_partsOf _ _)] at hread
      exact hread
    | tm =>
      rw [hfixed (by decide) (by decide)]
      have hbytes := h.six_spec hcell (hcellBytes _ hkind) rfl
      have hread := (Yields.lift hbytes).bind_pure (g := fun bytes => SqlValue.timestamp (clockOf bytes))
      rw [clockOf_packFields (fits_partsOf _ _)] at hread
      exact hread

end

end Uniorm.Libpq
