import Uniorm.Libpq.Blocks

/-! # Two ways of reading a column

The value of a column reaches a member through the buffer that the member binds, or as a `sql_value`
that is cast to the type of the member. For the types a member is meant for, both say the same,
except for a time of day with a fraction of a second: only the buffer of the member takes the
fraction.
-/
namespace Uniorm.Libpq

open Foundation Schema Value

section
variable (narrowDouble : SqlValue → Except ReadError (BitVec 64))

/-- `from_chars` of an integer, which has to take the whole text. -/
def parseNumericText (bits : ℕ) (text : List UInt8) : Except ReadError Int64 :=
  let negative := text.head? = some 45
  let digits := if negative then text.tail else text
  let value : ℤ := if negative then -digitsValue digits else digitsValue digits
  if digits ≠ [] ∧ digits.all isDigit ∧ -2 ^ (bits - 1) ≤ value ∧ value < 2 ^ (bits - 1) then
    .ok (Int64.ofInt value)
  else .error .numericText

def checkAndCast (bits : ℕ) (value : Int64) : Except ReadError Int64 :=
  if -2 ^ (bits - 1) ≤ value.toInt ∧ value.toInt < 2 ^ (bits - 1) then .ok value
  else .error .numericRange

/-- `narrow_checked` into an integer of `bits` bits. -/
def narrowChecked (bits : ℕ) : SqlValue → Except ReadError Int64
  | .int16 value => checkAndCast bits value.toInt64
  | .int32 value => checkAndCast bits value.toInt64
  | .int64 value => checkAndCast bits value
  | .bool value => checkAndCast bits (if value then 1 else 0)
  | .double _ => .error .integralTarget
  | .string text => parseNumericText bits text
  | _ => .error .incompatible

/-- `value_cast`, given a type that a `sql_value` holds. -/
def castPlain : (t : PlainType) → SqlValue → Except ReadError t.Carrier
  | .bool, .bool value => .ok value
  | .bool, _ => .error (.notA "a bool")
  | .int16, .int16 value => .ok value
  | .int16, value => (narrowChecked 16 value).map Int64.toInt16
  | .int32, .int32 value => .ok value
  | .int32, value => (narrowChecked 32 value).map Int64.toInt32
  | .int64, .int64 value => .ok value
  | .int64, value => narrowChecked 64 value
  | .double, .double bits => .ok bits
  | .double, value => narrowDouble value
  | .string, .string text => .ok text
  | .string, _ => .error (.notA "a string")
  | .bytes, .bytes bytes => .ok bytes
  | .bytes, _ => .error (.notA "binary data")
  | .timestamp, .timestamp value => .ok value
  | .timestamp, _ => .error (.notA "a timestamp")

def castRepresentable (u : Representable) (value : SqlValue) : Except ReadError u.Carrier := do
  let slot ← castPlain narrowDouble u.dbType value
  match u.decoded slot with
  | some value => pure value
  | none => .error .converter

def valueCast : (m : MemberType) → SqlValue → Except ReadError m.Carrier
  | .required u, value => castRepresentable narrowDouble u value
  | .optional _, .null => .ok none
  | .optional u, value => (castRepresentable narrowDouble u value).map some

def castRow : (bindings : List Binding) → List SqlValue → Except ReadError (Fields bindings)
  | [], _ => .ok ()
  | b :: bindings, value :: values => do
    let field ← valueCast narrowDouble b.type value
    let fields ← castRow bindings values
    pure (field, fields)
  | b :: _, [] => .error (.readColumn b.column)

end

/-- `accepted_sql_types`. -/
def acceptedSqlTypes : PlainType → List SqlType
  | .bool => [.boolean]
  | .int16 => [.smallint]
  | .int32 => [.integer]
  | .int64 => [.bigint]
  | .double => [.real, .doublePrecision, .decimal]
  | .string => [.character, .varchar, .longvarchar, .wchar, .wvarchar, .guid, .decimal]
  | .bytes => [.binary, .varbinary]
  | .timestamp => [.date, .time, .timestamp]

def membersFrom : ℕ → List MemberType → List Binding
  | _, [] => []
  | column, m :: members => ⟨m, column⟩ :: membersFrom (column + 1) members

/-- The members that a result is read into: one for each column, of a type that accepts the type of
the column, floating point aside. -/
structure Mapped (answer : PGresult) (members : List MemberType) : Prop where
  length : members.length = answer.fields.length
  accepted : ∀ (i : ℕ) (m : MemberType), members[i]? = some m →
    (answer.native i).sqlType ∈ acceptedSqlTypes m.representable.dbType ∧
      m.representable.dbType ≠ .double

/-- Two reads give the same, or both throw. -/
def Agree {α : Type} (x y : Reading α) : Prop :=
  ∀ log log', (∃ a, (x log).1 = .ok a ∧ (y log').1 = .ok a) ∨
    ∃ e e', (x log).1 = .error e ∧ (y log').1 = .error e'

theorem Yields.agree_iff {α : Type} {x y : Reading α} {r r' : Option α} {long long' : List LongRead}
    (hx : Yields x r long) (hy : Yields y r' long') : Agree x y ↔ r = r' := by
  constructor
  · intro h
    cases r with
    | none =>
      cases r' with
      | none => rfl
      | some b =>
        obtain ⟨e, he, -⟩ := hx.throws rfl []
        rcases h [] [] with ⟨a, ha, -⟩ | ⟨e, e', -, he'⟩
        · rw [he] at ha
          cases ha
        · rw [hy.returns b rfl] at he'
          cases he'
    | some a =>
      cases r' with
      | none =>
        obtain ⟨e, he, -⟩ := hy.throws rfl []
        rcases h [] [] with ⟨a, -, ha⟩ | ⟨e, e', he', -⟩
        · rw [he] at ha
          cases ha
        · rw [hx.returns a rfl] at he'
          cases he'
      | some b =>
        rcases h [] [] with ⟨c, hc, hc'⟩ | ⟨e, e', he, -⟩
        · rw [hx.returns a rfl] at hc
          rw [hy.returns b rfl] at hc'
          rw [Except.ok.inj hc, Except.ok.inj hc']
        · rw [hx.returns a rfl] at he
          cases he
  · rintro rfl log log'
    cases r with
    | none =>
      obtain ⟨e, he, -⟩ := hx.throws rfl log
      obtain ⟨e', he', -⟩ := hy.throws rfl log'
      exact .inr ⟨e, e', he, he'⟩
    | some a =>
      left
      refine ⟨a, ?_, ?_⟩
      · rw [hx.returns a rfl]
      · rw [hy.returns a rfl]

/-- All members of a row, unless one of them has no value. -/
def Fields.sequence : (bindings : List Binding) → (∀ b : Binding, Option b.type.Carrier) →
    Option (Fields bindings)
  | [], _ => some ()
  | b :: bindings, f => do
    let field ← f b
    let fields ← sequence bindings f
    some (field, fields)

namespace Fields
variable {bindings : List Binding} {f g : ∀ b : Binding, Option b.type.Carrier}

theorem sequence_eq_none :
    sequence bindings f = none ↔ ∃ b ∈ bindings, f b = none := by
  induction bindings with
  | nil => simp [sequence]
  | cons b bindings ih =>
    rw [sequence, List.exists_mem_cons_iff, ← ih]
    cases f b with
    | none => exact ⟨fun _ => .inl rfl, fun _ => rfl⟩
    | some value =>
      cases sequence bindings f with
      | none => exact ⟨fun _ => .inr rfl, fun _ => rfl⟩
      | some values =>
        constructor
        · intro h
          cases h
        · rintro (h | h) <;> cases h

theorem sequence_congr (h : ∀ b ∈ bindings, f b = g b) : sequence bindings f = sequence bindings g := by
  induction bindings with
  | nil => rfl
  | cons b bindings ih =>
    rw [sequence, sequence, h b List.mem_cons_self, ih fun b hb => h b (List.mem_cons_of_mem _ hb)]

theorem eq_of_sequence_eq (h : sequence bindings f = sequence bindings g)
    (hsome : sequence bindings f ≠ none) : ∀ b ∈ bindings, f b = g b := by
  induction bindings with
  | nil =>
    intro b hb
    cases hb
  | cons first bindings ih =>
    rw [sequence] at h hsome
    rw [sequence] at h
    cases hf : f first with
    | none =>
      rw [hf] at hsome
      exact absurd rfl hsome
    | some value =>
      cases hfs : sequence bindings f with
      | none =>
        rw [hf, hfs] at hsome
        exact absurd rfl hsome
      | some values =>
        rw [hf, hfs] at h
        cases hg : g first with
        | none =>
          rw [hg] at h
          cases h
        | some value' =>
          cases hgs : sequence bindings g with
          | none =>
            rw [hg, hgs] at h
            cases h
          | some values' =>
            rw [hg, hgs] at h
            obtain ⟨hvalue, hvalues⟩ := Prod.mk.inj (Option.some.inj h)
            have hrest : sequence bindings f = sequence bindings g := by
              rw [hfs, hgs, hvalues]
            intro b hb
            rcases List.mem_cons.mp hb with rfl | hb
            · rw [hf, hg, hvalue]
            · apply ih hrest _ b hb
              rw [hfs]
              exact Option.some_ne_none _

end Fields

section
variable (strtod : List UInt8 → Option (BitVec 64))
  (narrowDouble : SqlValue → Except ReadError (BitVec 64))

/-- What a cell says to a member by way of a `sql_value`. -/
def castValue (m : MemberType) (native : PgType) (cell : Option (List UInt8)) : Option m.Carrier :=
  (cellValue strtod (kindFor native.sqlType) native cell).bind fun value =>
    (valueCast narrowDouble m value).toOption

def ofTimestamp {u : Representable} (h : u.dbType = .timestamp) (tp : Int64) : Option u.Carrier :=
  u.decoded (cast (congrArg PlainType.Carrier h.symm) tp)

def TimestampParts.wholeSeconds (p : TimestampParts) : TimestampParts := { p with fractionNs := 0 }

/-- A time of day has a fraction of a second, and the member tells it from the time without it. -/
def LosesFraction (m : MemberType) (native : PgType) (cell : Option (List UInt8)) : Prop :=
  native.sqlType = .time ∧ ∃ (text : List UInt8) (h : m.representable.dbType = .timestamp),
    cell = some text ∧
      ofTimestamp h (makeTimestamp (partsOf text native)) ≠
        ofTimestamp h (makeTimestamp (TimestampParts.wholeSeconds (partsOf text native)))

variable {strtod narrowDouble} {t : PlainType} {u : Representable} {m : MemberType} {native : PgType}
  {text : List UInt8} {cell : Option (List UInt8)}

theorem intOf_eq_checkAndCast (bits : ℕ) :
    intOf bits text = (wholeInteger text).toOption.bind fun value =>
      (checkAndCast bits value).toOption := by
  unfold intOf
  cases wholeInteger text with
  | error e => rfl
  | ok value =>
    change (asWidth bits value 0 text).toOption = (checkAndCast bits value).toOption
    unfold asWidth checkAndCast
    split <;> rfl

variable (strtod narrowDouble) in
/-- The buffer of a member and a `sql_value` carry the same representation, fractions of a time of
day aside. -/
theorem typedValue_eq_cast (haccepted : native.sqlType ∈ acceptedSqlTypes t) (hdouble : t ≠ .double)
    (htime : native.sqlType ≠ .time) :
    typedValue strtod t native text =
      (dynamicValue strtod (kindFor native.sqlType) native text).bind fun value =>
        (castPlain narrowDouble t value).toOption := by
  cases t with
  | double => exact absurd rfl hdouble
  | bool =>
    rw [List.mem_singleton.mp haccepted, typedValue]
    change _ = ((intOf 8 text).map fun value => SqlValue.bool (value ≠ 0)).bind _
    cases intOf 8 text <;> rfl
  | int16 =>
    rw [List.mem_singleton.mp haccepted, typedValue, intOf_eq_checkAndCast]
    change _ = ((wholeInteger text).toOption.map SqlValue.int64).bind _
    cases (wholeInteger text).toOption with
    | none => rfl
    | some value =>
      change (checkAndCast 16 value).toOption.map _ = ((checkAndCast 16 value).map _).toOption
      cases checkAndCast 16 value <;> rfl
  | int32 =>
    rw [List.mem_singleton.mp haccepted, typedValue, intOf_eq_checkAndCast]
    change _ = ((wholeInteger text).toOption.map SqlValue.int64).bind _
    cases (wholeInteger text).toOption with
    | none => rfl
    | some value =>
      change (checkAndCast 32 value).toOption.map _ = ((checkAndCast 32 value).map _).toOption
      cases checkAndCast 32 value <;> rfl
  | int64 =>
    rw [List.mem_singleton.mp haccepted, typedValue]
    change _ = ((wholeInteger text).toOption.map SqlValue.int64).bind _
    cases (wholeInteger text).toOption <;> rfl
  | string =>
    have hkind : kindFor native.sqlType = .text := by
      simp only [acceptedSqlTypes, List.mem_cons, List.not_mem_nil, or_false] at haccepted
      rcases haccepted with h | h | h | h | h | h | h <;> rw [h] <;> rfl
    rw [hkind]
    rfl
  | bytes =>
    have hkind : kindFor native.sqlType = .bytes := by
      simp only [acceptedSqlTypes, List.mem_cons, List.not_mem_nil, or_false] at haccepted
      rcases haccepted with h | h <;> rw [h] <;> rfl
    rw [hkind, typedValue]
    change _ = ((bytesOf text (native = .bytea)).toOption.map SqlValue.bytes).bind _
    cases (bytesOf text (native = .bytea)).toOption <;> rfl
  | timestamp =>
    simp only [acceptedSqlTypes, List.mem_cons, List.not_mem_nil, or_false] at haccepted
    rcases haccepted with h | h | h
    · have hdate : native = .date := by
        cases native <;> first | rfl | cases h
      rw [hdate]
      rfl
    · exact absurd h htime
    · rw [h]
      rfl

/-- A `result_set` drops the fraction of a time of day. -/
theorem dynamicValue_of_time (h : native.sqlType = .time) :
    dynamicValue strtod (kindFor native.sqlType) native text =
      some (.timestamp (makeTimestamp (TimestampParts.wholeSeconds (partsOf text native)))) := by
  have hclock : shapeOf native = ⟨false, true⟩ := by
    cases native <;> first | rfl | cases h
  rw [h]
  change some (SqlValue.timestamp (makeTimestamp ⟨1970, 1, 1, (partsOf text native).hour,
    (partsOf text native).minute, (partsOf text native).second, 0⟩)) = _
  unfold TimestampParts.wholeSeconds partsOf
  rw [hclock]
  rfl

theorem toOption_castRepresentable (value : SqlValue) :
    (castRepresentable narrowDouble u value).toOption =
      (castPlain narrowDouble u.dbType value).toOption.bind u.decoded := by
  unfold castRepresentable
  cases castPlain narrowDouble u.dbType value with
  | error e => rfl
  | ok slot =>
    change (match u.decoded slot with
      | some value => (pure value : Except ReadError u.Carrier)
      | none => .error .converter).toOption = u.decoded slot
    cases u.decoded slot <;> rfl

theorem representedValue_of_timestamp (h : u.dbType = .timestamp) :
    representedValue strtod u native text = ofTimestamp h (makeTimestamp (partsOf text native)) := by
  cases u with
  | plain t =>
    obtain rfl : t = .timestamp := h
    rfl
  | converted D c =>
    obtain ⟨dbType, toDb, fromDb⟩ := c
    obtain rfl : dbType = .timestamp := h
    rfl

theorem castRepresentable_timestamp (h : u.dbType = .timestamp) (tp : Int64) :
    (castRepresentable narrowDouble u (.timestamp tp)).toOption = ofTimestamp h tp := by
  rw [toOption_castRepresentable]
  cases u with
  | plain t =>
    obtain rfl : t = .timestamp := h
    rfl
  | converted D c =>
    obtain ⟨dbType, toDb, fromDb⟩ := c
    obtain rfl : dbType = .timestamp := h
    rfl

theorem timestamp_of_time (haccepted : native.sqlType ∈ acceptedSqlTypes t)
    (htime : native.sqlType = .time) : t = .timestamp := by
  rw [htime] at haccepted
  cases t with
  | timestamp => rfl
  | _ => simp [acceptedSqlTypes] at haccepted

variable (strtod narrowDouble) in
/-- The two ways to the value of a cell that is not NULL. -/
theorem representedValue_eq_iff (haccepted : native.sqlType ∈ acceptedSqlTypes m.representable.dbType)
    (hdouble : m.representable.dbType ≠ .double) :
    (representedValue strtod m.representable native text =
        (dynamicValue strtod (kindFor native.sqlType) native text).bind fun value =>
          (castRepresentable narrowDouble m.representable value).toOption) ↔
      ¬LosesFraction m native (some text) := by
  by_cases htime : native.sqlType = .time
  · have h := timestamp_of_time haccepted htime
    rw [dynamicValue_of_time htime, representedValue_of_timestamp h, Option.bind_some,
      castRepresentable_timestamp h]
    constructor
    · rintro heq ⟨-, text', h', htext, hne⟩
      obtain rfl := Option.some.inj htext
      exact hne heq
    · intro hkept
      by_contra hne
      exact hkept ⟨htime, text, h, rfl, hne⟩
  · have hcast : representedValue strtod m.representable native text =
        (dynamicValue strtod (kindFor native.sqlType) native text).bind fun value =>
          (castRepresentable narrowDouble m.representable value).toOption := by
      rw [representedValue, typedValue_eq_cast strtod narrowDouble haccepted hdouble htime]
      cases dynamicValue strtod (kindFor native.sqlType) native text with
      | none => rfl
      | some value =>
        rw [Option.bind_some, Option.bind_some, toOption_castRepresentable]
        rfl
    exact ⟨fun _ hloses => htime hloses.1, fun _ => hcast⟩

theorem dynamicValue_ne_null {kind : SlotKind} {value : SqlValue}
    (h : dynamicValue strtod kind native text = some value) : value ≠ .null := by
  rintro rfl
  cases kind with
  | boolean =>
    obtain ⟨n, -, hn⟩ := Option.map_eq_some_iff.mp h
    cases hn
  | integer =>
    obtain ⟨n, -, hn⟩ := Option.map_eq_some_iff.mp h
    cases hn
  | floating =>
    obtain ⟨n, -, hn⟩ := Option.map_eq_some_iff.mp h
    cases hn
  | bytes =>
    obtain ⟨n, -, hn⟩ := Option.map_eq_some_iff.mp h
    cases hn
  | text | ts | dt | tm => cases Option.some.inj h

theorem castPlain_null (h : t ≠ .double) : (castPlain narrowDouble t .null).toOption = none := by
  cases t with
  | double => exact absurd rfl h
  | _ => rfl

/-- A cell says the same to a member either way, unless a fraction is lost. -/
theorem memberValue_eq_iff (haccepted : native.sqlType ∈ acceptedSqlTypes m.representable.dbType)
    (hdouble : m.representable.dbType ≠ .double) :
    memberValue strtod m native cell = castValue strtod narrowDouble m native cell ↔
      ¬LosesFraction m native cell := by
  cases cell with
  | none =>
    have hkept : ¬LosesFraction m native none := by
      rintro ⟨-, text, -, hnone, -⟩
      cases hnone
    have hnull : memberValue strtod m native none = castValue strtod narrowDouble m native none := by
      cases m with
      | optional u => rfl
      | required u =>
        change none = (castRepresentable narrowDouble u .null).toOption
        have hslot : (castPlain narrowDouble u.dbType .null).toOption = none := castPlain_null hdouble
        rw [toOption_castRepresentable, hslot]
        rfl
    exact ⟨fun _ => hkept, fun _ => hnull⟩
  | some text =>
    rw [← representedValue_eq_iff strtod narrowDouble haccepted hdouble]
    unfold castValue cellValue
    cases m with
    | required u => rfl
    | optional u =>
      -- an optional wraps what either way gives
      have hsome : ((dynamicValue strtod (kindFor native.sqlType) native text).bind fun value =>
          (valueCast narrowDouble (.optional u) value).toOption) =
          ((dynamicValue strtod (kindFor native.sqlType) native text).bind fun value =>
            (castRepresentable narrowDouble u value).toOption).map some := by
        cases hvalue : dynamicValue strtod (kindFor native.sqlType) native text with
        | none => rfl
        | some value =>
          have hne := dynamicValue_ne_null hvalue
          have hcast : valueCast narrowDouble (.optional u) value =
              (castRepresentable narrowDouble u value).map some := by
            cases value with
            | null => exact absurd rfl hne
            | _ => rfl
          rw [Option.bind_some, Option.bind_some, hcast]
          cases castRepresentable narrowDouble u value <;> rfl
      rw [hsome]
      exact (Option.map_injective (Option.some_injective _)).eq_iff

end

section
variable {strtod : List UInt8 → Option (BitVec 64)}
  {narrowDouble : SqlValue → Except ReadError (BitVec 64)} {answer : PGresult}
  {members : List MemberType} {bindings : List Binding} {tuple : ℕ}

theorem fieldsOf_eq_sequence : fieldsOf strtod answer tuple bindings =
    Fields.sequence bindings fun b => memberValue strtod b.type (answer.native (b.column - 1))
      (answer.cell tuple (b.column - 1)) := by
  induction bindings with
  | nil => rfl
  | cons b bindings ih =>
    rw [fieldsOf, Fields.sequence, ih]

theorem mem_membersFrom {column : ℕ} {b : Binding} :
    b ∈ membersFrom column members ↔
      ∃ i m, members[i]? = some m ∧ b = ⟨m, column + i⟩ := by
  induction members generalizing column with
  | nil => simp [membersFrom]
  | cons first members ih =>
    rw [membersFrom, List.mem_cons, ih]
    constructor
    · rintro (rfl | ⟨i, m, hm, rfl⟩)
      · exact ⟨0, first, rfl, rfl⟩
      · exact ⟨i + 1, m, hm, by rw [Nat.add_right_comm, Nat.add_assoc]⟩
    · rintro ⟨i, m, hm, rfl⟩
      cases i with
      | zero =>
        obtain rfl := Option.some.inj hm
        exact .inl rfl
      | succ i => exact .inr ⟨i, m, hm, by rw [Nat.add_right_comm, Nat.add_assoc]⟩

theorem map_column_membersFrom (column : ℕ) :
    (membersFrom column members).map Binding.column = List.range' column members.length := by
  induction members generalizing column with
  | nil => rfl
  | cons first members ih =>
    rw [membersFrom, List.map_cons, ih, List.length_cons, List.range'_succ]

theorem fieldsFit_membersFrom (hlength : members.length = answer.fields.length) :
    FieldsFit answer (membersFrom 1 members) := by
  refine ⟨?_, ?_⟩
  · rw [map_column_membersFrom]
    exact List.nodup_range'
  · intro b hb
    have hcolumn := List.mem_map_of_mem (f := Binding.column) hb
    rw [map_column_membersFrom, List.mem_range'_1] at hcolumn
    omega

theorem castRow_eq_sequence {field : ℕ} {infos : List ColumnInfo}
    (hinfos : answer.columnMeta.drop field = infos) (hlength : members.length = infos.length) :
    usedOf (castRow narrowDouble (membersFrom (field + 1) members))
        (valuesOf strtod answer tuple field (infos.map fun info => kindFor info.type)) =
      Fields.sequence (membersFrom (field + 1) members) fun b =>
        castValue strtod narrowDouble b.type (answer.native (b.column - 1))
          (answer.cell tuple (b.column - 1)) := by
  induction members generalizing field infos with
  | nil =>
    cases infos with
    | nil => rfl
    | cons info infos => cases hlength
  | cons m members ih =>
    cases infos with
    | nil => cases hlength
    | cons info infos =>
      have hinfo : answer.columnMeta[field]? = some info := by
        rw [← List.head?_drop, hinfos]
        rfl
      have hrest : answer.columnMeta.drop (field + 1) = infos := by
        rw [← List.tail_drop, hinfos]
        rfl
      have htype : info.type = (answer.native field).sqlType := by
        unfold PGresult.columnMeta at hinfo
        rw [List.getElem?_map] at hinfo
        obtain ⟨f, hf, rfl⟩ := Option.map_eq_some_iff.mp hinfo
        unfold PGresult.native
        rw [hf]
        rfl
      have hvalues := ih hrest (Nat.succ.inj hlength)
      rw [List.map_cons, valuesOf, membersFrom, Fields.sequence, ← hvalues, htype, Nat.add_sub_cancel]
      unfold castValue
      cases cellValue strtod (kindFor (answer.native field).sqlType) (answer.native field)
        (answer.cell tuple field) with
      | none => rfl
      | some value =>
        cases valuesOf strtod answer tuple (field + 1) (infos.map fun info => kindFor info.type) with
        | none =>
          change none = _
          rw [Option.bind_some]
          cases (valueCast narrowDouble m value).toOption <;> rfl
        | some values =>
          change (castRow narrowDouble (⟨m, field + 1⟩ :: membersFrom (field + 1 + 1) members)
            (value :: values)).toOption = _
          rw [castRow]
          unfold usedOf
          rw [Option.bind_some, Option.bind_some]
          cases valueCast narrowDouble m value with
          | error e => rfl
          | ok first =>
            cases castRow narrowDouble (membersFrom (field + 1 + 1) members) values <;> rfl

theorem narrowChecked_ne_overrun {bits : ℕ} {value : SqlValue} :
    narrowChecked bits value ≠ .error .overrun := by
  have hcheck : ∀ value, checkAndCast bits value ≠ .error .overrun := by
    intro value hbad
    unfold checkAndCast at hbad
    split at hbad <;> cases hbad
  cases value with
  | int16 value => exact hcheck _
  | int32 value => exact hcheck _
  | int64 value => exact hcheck _
  | bool value => exact hcheck _
  | string text =>
    intro hbad
    change parseNumericText bits text = _ at hbad
    unfold parseNumericText at hbad
    simp only at hbad
    split_ifs at hbad <;> cases hbad
  | null | double | bytes | timestamp =>
    intro hbad
    cases hbad

theorem castPlain_ne_overrun {t : PlainType} {value : SqlValue} (h : t ≠ .double) :
    castPlain narrowDouble t value ≠ .error .overrun := by
  have hmap : ∀ {β : Type} (bits : ℕ) (f : Int64 → β),
      (narrowChecked bits value).map f ≠ .error .overrun := by
    intro β bits f hbad
    cases hvalue : narrowChecked bits value with
    | error e =>
      rw [hvalue] at hbad
      obtain rfl := Except.error.inj hbad
      exact narrowChecked_ne_overrun hvalue
    | ok n =>
      rw [hvalue] at hbad
      cases hbad
  cases t with
  | double => exact absurd rfl h
  | int16 =>
    cases value with
    | int16 value =>
      intro hbad
      cases hbad
    | _ => exact hmap 16 Int64.toInt16
  | int32 =>
    cases value with
    | int32 value =>
      intro hbad
      cases hbad
    | _ => exact hmap 32 Int64.toInt32
  | int64 =>
    have hcast : (∃ n, value = .int64 n) ∨
        castPlain narrowDouble .int64 value = narrowChecked 64 value := by
      cases value <;> first | exact .inl ⟨_, rfl⟩ | exact .inr rfl
    rcases hcast with ⟨n, rfl⟩ | hcast
    · intro hbad
      cases hbad
    · rw [hcast]
      exact narrowChecked_ne_overrun
  | bool | string | bytes | timestamp =>
    cases value <;>
    · intro hbad
      cases hbad

theorem castRow_ne_overrun {values : List SqlValue}
    (h : ∀ b ∈ bindings, b.type.representable.dbType ≠ .double) :
    castRow narrowDouble bindings values ≠ .error .overrun := by
  have hrepresentable : ∀ (u : Representable) (value : SqlValue), u.dbType ≠ .double →
      castRepresentable narrowDouble u value ≠ .error .overrun := by
    intro u value hu hbad
    unfold castRepresentable at hbad
    cases hslot : castPlain narrowDouble u.dbType value with
    | error e =>
      rw [hslot] at hbad
      obtain rfl := Except.error.inj hbad
      exact castPlain_ne_overrun hu hslot
    | ok slot =>
      rw [hslot] at hbad
      change (match u.decoded slot with
        | some value => (pure value : Except ReadError u.Carrier)
        | none => .error .converter) = _ at hbad
      cases hvalue : u.decoded slot with
      | none =>
        rw [hvalue] at hbad
        cases hbad
      | some value =>
        rw [hvalue] at hbad
        cases hbad
  have hmember : ∀ (m : MemberType) (value : SqlValue), m.representable.dbType ≠ .double →
      valueCast narrowDouble m value ≠ .error .overrun := by
    intro m value hm hbad
    cases m with
    | required u => exact hrepresentable u value hm hbad
    | optional u =>
      by_cases hnull : value = .null
      · rw [hnull] at hbad
        cases hbad
      · have hcast : valueCast narrowDouble (.optional u) value =
            (castRepresentable narrowDouble u value).map some := by
          cases value with
          | null => exact absurd rfl hnull
          | _ => rfl
        rw [hcast] at hbad
        cases hvalue : castRepresentable narrowDouble u value with
        | error e =>
          rw [hvalue] at hbad
          obtain rfl := Except.error.inj hbad
          exact hrepresentable u value hm hvalue
        | ok value' =>
          rw [hvalue] at hbad
          cases hbad
  induction bindings generalizing values with
  | nil =>
    intro hbad
    cases hbad
  | cons b bindings ih =>
    cases values with
    | nil =>
      intro hbad
      cases hbad
    | cons value values =>
      intro hbad
      rw [castRow] at hbad
      cases hvalue : valueCast narrowDouble b.type value with
      | error e =>
        rw [hvalue] at hbad
        obtain rfl := Except.error.inj hbad
        exact hmember b.type value (h b List.mem_cons_self) hvalue
      | ok first =>
        rw [hvalue] at hbad
        cases hrest : castRow narrowDouble bindings values with
        | error e =>
          rw [hrest] at hbad
          obtain rfl := Except.error.inj hbad
          exact ih (fun b hb => h b (List.mem_cons_of_mem _ hb)) hrest
        | ok rest =>
          rw [hrest] at hbad
          cases hbad

theorem Mapped.binding (h : Mapped answer members) {b : Binding} (hb : b ∈ membersFrom 1 members) :
    ∃ i, members[i]? = some b.type ∧ b.column - 1 = i ∧
      (answer.native i).sqlType ∈ acceptedSqlTypes b.type.representable.dbType ∧
      b.type.representable.dbType ≠ .double := by
  obtain ⟨i, m, hm, rfl⟩ := mem_membersFrom.mp hb
  exact ⟨i, hm, by simp only; omega, h.accepted i m hm⟩

variable (strtod narrowDouble) in
/-- Whatever the sizes of the blocks, both ways agree when their rows do. -/
theorem Mapped.agree_iff (h : Mapped answer members) (n n' : ℕ+) :
    Agree (fetchRows strtod n (membersFrom 1 members) answer)
        (ResultSet.readAll strtod (castRow narrowDouble (membersFrom 1 members)) n' answer) ↔
      ((List.range answer.tuples.length).mapM fun tuple =>
          Fields.sequence (membersFrom 1 members) fun b => memberValue strtod b.type
            (answer.native (b.column - 1)) (answer.cell tuple (b.column - 1))) =
        (List.range answer.tuples.length).mapM fun tuple =>
          Fields.sequence (membersFrom 1 members) fun b => castValue strtod narrowDouble b.type
            (answer.native (b.column - 1)) (answer.cell tuple (b.column - 1)) := by
  have htyped : Yields (fetchRows strtod n (membersFrom 1 members) answer) _ _ :=
    fetchRows_spec n.pos
  have hdynamic : Yields (ResultSet.readAll strtod (castRow narrowDouble (membersFrom 1 members)) n'
      answer) _ _ := ResultSet.readAll_spec n' fun values => castRow_ne_overrun fun b hb => by
    obtain ⟨i, -, -, -, hdouble⟩ := h.binding hb
    exact hdouble
  have hlength : members.length = answer.columnMeta.length := by
    rw [length_columnMeta]
    exact h.length
  rw [htyped.agree_iff hdynamic, if_pos (fieldsFit_membersFrom h.length)]
  have hfields : (fun tuple => fieldsOf strtod answer tuple (membersFrom 1 members)) = fun tuple =>
      Fields.sequence (membersFrom 1 members) fun b => memberValue strtod b.type
        (answer.native (b.column - 1)) (answer.cell tuple (b.column - 1)) :=
    funext fun tuple => fieldsOf_eq_sequence
  have hcasts : (fun tuple => usedOf (castRow narrowDouble (membersFrom 1 members))
      (valuesOf strtod answer tuple 0 answer.kinds)) = fun tuple =>
      Fields.sequence (membersFrom 1 members) fun b => castValue strtod narrowDouble b.type
        (answer.native (b.column - 1)) (answer.cell tuple (b.column - 1)) :=
    funext fun tuple => castRow_eq_sequence List.drop_zero hlength
  rw [hfields, hcasts]

variable (strtod narrowDouble) in
/-- A result reads the same either way exactly when no time of day in it loses a fraction that its
member would tell, or when either way meets a cell that it cannot read: a text that is no value of
the column or does not fit the member, NULL for a member that is no optional, a value that the
converter of the member refuses. -/
theorem dynamic_and_typed_reads_agree_iff (h : Mapped answer members) (n n' : ℕ+) :
    Agree (fetchRows strtod n (membersFrom 1 members) answer)
        (ResultSet.readAll strtod (castRow narrowDouble (membersFrom 1 members)) n' answer) ↔
      (∀ tuple < answer.tuples.length, ∀ (i : ℕ) (m : MemberType), members[i]? = some m →
        ¬LosesFraction m (answer.native i) (answer.cell tuple i)) ∨
      ((∃ tuple < answer.tuples.length, ∃ (i : ℕ) (m : MemberType), members[i]? = some m ∧
          memberValue strtod m (answer.native i) (answer.cell tuple i) = none) ∧
        ∃ tuple < answer.tuples.length, ∃ (i : ℕ) (m : MemberType), members[i]? = some m ∧
          castValue strtod narrowDouble m (answer.native i) (answer.cell tuple i) = none) := by
  have hmem : ∀ (i : ℕ) (m : MemberType), members[i]? = some m → ⟨m, i + 1⟩ ∈ membersFrom 1 members :=
    fun i m hm => mem_membersFrom.mpr ⟨i, m, hm, by rw [Nat.add_comm]⟩
  -- a row that cannot be read has a cell that cannot
  have hbad : ∀ f : (∀ m : MemberType, PgType → Option (List UInt8) → Option m.Carrier),
      (∃ tuple ∈ List.range answer.tuples.length, Fields.sequence (membersFrom 1 members) (fun b =>
        f b.type (answer.native (b.column - 1)) (answer.cell tuple (b.column - 1))) = none) ↔
      ∃ tuple < answer.tuples.length, ∃ (i : ℕ) (m : MemberType), members[i]? = some m ∧
        f m (answer.native i) (answer.cell tuple i) = none := by
    intro f
    constructor
    · rintro ⟨tuple, htuple, hnone⟩
      obtain ⟨b, hb, hvalue⟩ := Fields.sequence_eq_none.mp hnone
      obtain ⟨i, m, hm, rfl⟩ := mem_membersFrom.mp hb
      have hcolumn : 1 + i - 1 = i := by omega
      simp only [hcolumn] at hvalue
      exact ⟨tuple, List.mem_range.mp htuple, i, m, hm, hvalue⟩
    · rintro ⟨tuple, htuple, i, m, hm, hnone⟩
      exact ⟨tuple, List.mem_range.mpr htuple,
        Fields.sequence_eq_none.mpr ⟨_, hmem i m hm, hnone⟩⟩
  rw [h.agree_iff strtod narrowDouble, mapM_eq_iff, hbad (memberValue strtod),
    hbad (castValue strtod narrowDouble)]
  constructor
  · rintro (hall | hfail)
    · by_cases hreads : ∃ tuple < answer.tuples.length, ∃ (i : ℕ) (m : MemberType),
          members[i]? = some m ∧ memberValue strtod m (answer.native i) (answer.cell tuple i) = none
      · right
        refine ⟨hreads, ?_⟩
        rw [← hbad (castValue strtod narrowDouble)]
        obtain ⟨tuple, htuple, hnone⟩ := (hbad (memberValue strtod)).mpr hreads
        exact ⟨tuple, htuple, (hall tuple htuple).symm.trans hnone⟩
      · left
        intro tuple htuple i m hm
        have hsome : Fields.sequence (membersFrom 1 members) (fun b => memberValue strtod b.type
            (answer.native (b.column - 1)) (answer.cell tuple (b.column - 1))) ≠ none := by
          intro hnone
          exact hreads ((hbad (memberValue strtod)).mp ⟨tuple, List.mem_range.mpr htuple, hnone⟩)
        have hcell := Fields.eq_of_sequence_eq (hall tuple (List.mem_range.mpr htuple)) hsome _
          (hmem i m hm)
        obtain ⟨haccepted, hdouble⟩ := h.accepted i m hm
        exact (memberValue_eq_iff haccepted hdouble).mp hcell
    · exact .inr hfail
  · rintro (hkept | hfail)
    · left
      intro tuple htuple
      apply Fields.sequence_congr
      intro b hb
      obtain ⟨i, hm, rfl, haccepted, hdouble⟩ := h.binding hb
      exact (memberValue_eq_iff haccepted hdouble).mpr
        (hkept tuple (List.mem_range.mp htuple) _ b.type hm)
    · exact .inr hfail

end

def timeColumn (text : List UInt8) : PGresult where
  fields := [⟨.time, -1⟩]
  tuples := [[some text]]
  aligned := by
    intro tuple htuple
    obtain rfl := List.mem_singleton.mp htuple
    rfl

def timestampMember : List MemberType := [.required (.plain .timestamp)]

theorem mapped_timeColumn (text : List UInt8) : Mapped (timeColumn text) timestampMember := by
  refine ⟨rfl, ?_⟩
  intro i m hm
  cases i with
  | zero =>
    obtain rfl := Option.some.inj hm
    change SqlType.time ∈ acceptedSqlTypes .timestamp ∧ PlainType.timestamp ≠ .double
    decide
  | succ i => cases hm

/-- 03:04:05 has no fraction to lose. -/
theorem whole_second_agrees :
    Mapped (timeColumn [48, 51, 58, 48, 52, 58, 48, 53]) timestampMember ∧
    Agree (fetchRows (fun _ => none) (1 : ℕ+) (membersFrom 1 timestampMember)
        (timeColumn [48, 51, 58, 48, 52, 58, 48, 53]))
      (ResultSet.readAll (fun _ => none) (castRow (fun _ => .error .incompatible)
        (membersFrom 1 timestampMember)) (2 : ℕ+) (timeColumn [48, 51, 58, 48, 52, 58, 48, 53])) := by
  have hmapped := mapped_timeColumn [48, 51, 58, 48, 52, 58, 48, 53]
  refine ⟨hmapped, (dynamic_and_typed_reads_agree_iff _ _ hmapped 1 2).mpr (.inl ?_)⟩
  intro tuple htuple i m hm
  obtain rfl : tuple = 0 := Nat.lt_one_iff.mp htuple
  cases i with
  | zero =>
    obtain rfl := Option.some.inj hm
    rintro ⟨-, text, h, htext, hne⟩
    obtain rfl := Option.some.inj htext
    exact hne rfl
  | succ i => cases hm

/-- 03:04:05.5 does not come out the same: only a member takes the half second. -/
theorem half_second_is_lost :
    Mapped (timeColumn [48, 51, 58, 48, 52, 58, 48, 53, 46, 53]) timestampMember ∧
    (fetchRows (fun _ => none) (1 : ℕ+) (membersFrom 1 timestampMember)
      (timeColumn [48, 51, 58, 48, 52, 58, 48, 53, 46, 53]) []).1 =
        .ok [((11045500000000 : Int64), ())] ∧
    (ResultSet.readAll (fun _ => none) (castRow (fun _ => .error .incompatible)
      (membersFrom 1 timestampMember)) (1 : ℕ+)
      (timeColumn [48, 51, 58, 48, 52, 58, 48, 53, 46, 53]) []).1 =
        .ok [((11045000000000 : Int64), ())] ∧
    ¬Agree (fetchRows (fun _ => none) (1 : ℕ+) (membersFrom 1 timestampMember)
        (timeColumn [48, 51, 58, 48, 52, 58, 48, 53, 46, 53]))
      (ResultSet.readAll (fun _ => none) (castRow (fun _ => .error .incompatible)
        (membersFrom 1 timestampMember)) (1 : ℕ+)
        (timeColumn [48, 51, 58, 48, 52, 58, 48, 53, 46, 53])) := by
  have hmapped := mapped_timeColumn [48, 51, 58, 48, 52, 58, 48, 53, 46, 53]
  obtain ⟨answer, hanswer⟩ : ∃ answer, timeColumn [48, 51, 58, 48, 52, 58, 48, 53, 46, 53] = answer :=
    ⟨_, rfl⟩
  have htyped : Yields (fetchRows (fun _ => none) (1 : ℕ+) (membersFrom 1 timestampMember) answer)
      (some [((11045500000000 : Int64), ())]) [] := by
    have hread : Yields (fetchRows (fun _ => none) (1 : ℕ+) (membersFrom 1 timestampMember) answer)
      _ _ := fetchRows_spec Nat.one_pos
    rw [← hanswer, if_pos (fieldsFit_membersFrom rfl)] at hread
    rw [← hanswer]
    exact hread
  have hdynamic : Yields (ResultSet.readAll (fun _ => none) (castRow (fun _ => .error .incompatible)
      (membersFrom 1 timestampMember)) (1 : ℕ+) answer)
      (some [((11045000000000 : Int64), ())]) [] := by
    have hread : Yields (ResultSet.readAll (fun _ => none) (castRow (fun _ => .error .incompatible)
      (membersFrom 1 timestampMember)) (1 : ℕ+) answer) _ _ :=
      ResultSet.readAll_spec 1 fun values => castRow_ne_overrun fun b hb => by
        obtain ⟨i, -, -, -, hdouble⟩ := hmapped.binding hb
        exact hdouble
    rw [← hanswer] at hread ⊢
    exact hread
  rw [hanswer] at hmapped ⊢
  refine ⟨hmapped, ?_, ?_, ?_⟩
  · rw [htyped.returns _ rfl]
  · rw [hdynamic.returns _ rfl]
  · rw [htyped.agree_iff hdynamic]
    intro heq
    have hsame := congrArg Prod.fst (List.cons.inj (Option.some.inj heq)).1
    exact absurd hsame (by decide)

end Uniorm.Libpq
