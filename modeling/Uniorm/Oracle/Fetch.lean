import Uniorm.Oracle.Native

/-! # Fetching from Oracle

OCI stages a block of rows for every bound column, and the statement copies it
into the buffers of the caller. A value that did not come with its row, or that
the caller's place is too small for, is flagged, and the caller reads it by the
column and the row. What OCI makes of a value of the server in another type is
a parameter; a buffer it stages a text or a byte string in takes as much of it
as there is room for.
-/
namespace Uniorm.Oracle

open Value

/-- A number with `bits` significant binary digits. -/
def IsBinary (bits : ℕ) (low high : ℤ) (q : ℚ) : Prop :=
  ∃ m e : ℤ, |m| < 2 ^ bits ∧ low ≤ e ∧ e ≤ high ∧ q = m * 2 ^ e

def IsDouble : ℚ → Prop := IsBinary 53 (-1074) 971

def IsFloat : ℚ → Prop := IsBinary 24 (-149) 104

structure OciDate where
  year : ℤ
  month : ℕ
  day : ℕ
  hour : ℕ
  minute : ℕ
  second : ℕ
  deriving DecidableEq, Repr

structure OciDateTime where
  parts : TimestampParts
  zone : ℤ
  deriving DecidableEq, Repr

def OciDate.dateTime (date : OciDate) : OciDateTime where
  parts := ⟨date.year, date.month, date.day, date.hour, date.minute, date.second, 0⟩
  zone := 0

/-- The conversions of OCI, from the values `V` of the server's columns. One that fails has no
result. An OCINumber is the number it stands for. -/
structure Oci (V : Type) where
  asNumber : DescribedColumn → V → Option ℚ
  asText : DescribedColumn → V → Option (List UInt8)
  asBinary : DescribedColumn → V → Option (List UInt8)
  asDate : DescribedColumn → V → Option OciDate
  asTimestamp : DescribedColumn → V → Option OciDateTime
  numberToInt : ℚ → Option Int64
  numberToReal : ℚ → Option ℚ
  numberToText : ℚ → Option (List UInt8)
  /-- The conversion of a double to a float, which is the compiler's. -/
  narrowed : ℚ → Option ℚ
  /-- What a staging of a size gets of a value: all of it where there is room. -/
  truncated : ℕ → List UInt8 → List UInt8
  /-- The 16 bits in which the length of a value is reported. -/
  reported : ℕ → UInt16
  numberToInt_exact : ∀ x : Int64, numberToInt x.toInt = some x
  numberToReal_exact : ∀ q, IsDouble q → numberToReal q = some q
  numberToReal_isDouble : ∀ q r, numberToReal q = some r → IsDouble r
  narrowed_exact : ∀ q, IsFloat q → narrowed q = some q
  narrowed_isFloat : ∀ q r, narrowed q = some r → IsFloat r
  truncated_exact : ∀ size value, value.length ≤ size → truncated size value = value
  truncated_length : ∀ size value, (truncated size value).length ≤ size
  reported_exact : ∀ length < 2 ^ 16, (reported length).toNat = length

/-- A cell of a result set, as the server holds it. -/
inductive Cell (V : Type) where
  | null
  | scalar (value : V)
  | lob (content : List UInt8)

inductive Staged where
  | null
  | number (n : ℚ)
  | bytes (held : List UInt8) (length : UInt16)
  | date (date : OciDate)
  | timestamp (stamp : OciDateTime)
  | locator (content : List UInt8)

/-- The rows that a caller has bound a buffer for. -/
structure Place (r : Requested) where
  slot : r.Slot
  indicator : ℤ

def nullIndicator : ℤ := -1

def noTotal : ℤ := -4

section
variable {V : Type} (oci : Oci V)

/-- What OCI writes into a staging of `size` bytes. -/
def Oci.held (size : ℕ) (value : List UInt8) : Staged :=
  .bytes (oci.truncated size value) (oci.reported value.length)

def Oci.define (column : DescribedColumn) (kind : StageKind) (size : ℕ) : Cell V → Option Staged
  | .null => some .null
  | .scalar value =>
    match kind with
    | .number => (oci.asNumber column value).map .number
    | .text => (oci.asText column value).map (oci.held size)
    | .binary => (oci.asBinary column value).map (oci.held size)
    | .date => (oci.asDate column value).map .date
    | .timestamp => (oci.asTimestamp column value).map .timestamp
    | .wideText | .wideBinary => none
  | .lob content =>
    match kind with
    | .wideText | .wideBinary => some (.locator content)
    | _ => none

/-- How many bytes of a staged row can be read. -/
def stagedLength (rowSize length : ℕ) : ℕ := if rowSize < length then rowSize else length

def Staged.text (rowSize : ℕ) : Staged → List UInt8
  | .bytes held length => held.take (stagedLength rowSize length.toNat)
  | _ => []

def copied (data : List UInt8) (place : List UInt8) : List UInt8 := data ++ place.drop data.length

/-- The value in a place that `limit` bytes of are for it, and whether it did not fit. -/
def putLimited (limit : ℕ) (data : List UInt8) (slot : List UInt8) : List UInt8 × ℤ × Bool :=
  if data.length ≤ limit then (copied data slot, data.length, false)
  else (copied (data.take limit) slot, limit + 1, true)

/-- A string binding reserves its last byte. -/
def putText (data : List UInt8) : (r : Requested) → Place r → Place r × Bool
  | .chars capacity, place =>
    let put := putLimited (capacity - 1) data place.slot
    (⟨put.1, put.2.1⟩, put.2.2)
  | .bytes capacity, place =>
    let put := putLimited capacity data place.slot
    (⟨put.1, put.2.1⟩, put.2.2)
  -- no text is staged for a buffer of another type
  | _, place => (place, false)

def numberToInteger (n : ℚ) : Except OciError Int64 :=
  match oci.numberToInt n with
  | some value => .ok value
  | none => .error .integer

def numberToReal (n : ℚ) : Except OciError ℚ :=
  match oci.numberToReal n with
  | some value => .ok value
  | none => .error .real

def numberToText (n : ℚ) : Except OciError (List UInt8) :=
  match oci.numberToText n with
  | some value => .ok value
  | none => .error .text

def putNumber (n : ℚ) : (r : Requested) → Place r → Except OciError (Place r × Bool)
  | .bit, place =>
    (numberToInteger oci n).map fun value => (⟨value.toInt8, place.indicator⟩, false)
  | .int8, place =>
    (numberToInteger oci n).map fun value => (⟨value.toInt8, place.indicator⟩, false)
  | .int16, place =>
    (numberToInteger oci n).map fun value => (⟨value.toInt16, place.indicator⟩, false)
  | .int32, place =>
    (numberToInteger oci n).map fun value => (⟨value.toInt32, place.indicator⟩, false)
  | .int64, place => (numberToInteger oci n).map fun value => (⟨value, place.indicator⟩, false)
  | .float32, place =>
    (numberToReal oci n).map fun value => (⟨oci.narrowed value, place.indicator⟩, false)
  | .float64, place => (numberToReal oci n).map fun value => (⟨some value, place.indicator⟩, false)
  | .chars capacity, place =>
    (numberToText oci n).map fun text => putText text (.chars capacity) place
  | .bytes capacity, place =>
    (numberToText oci n).map fun text => putText text (.bytes capacity) place
  | .timestampParts, _ => .error .numberInDateField
  | .dateParts, _ => .error .numberInDateField
  | .timeParts, _ => .error .numberInDateField

def putParts (e : OciError) (parts : TimestampParts) :
    (r : Requested) → Place r → Except OciError (Place r × Bool)
  | .dateParts, place => .ok (⟨⟨parts.year, parts.month, parts.day⟩, place.indicator⟩, false)
  | .timeParts, place => .ok (⟨⟨parts.hour, parts.minute, parts.second⟩, place.indicator⟩, false)
  | .timestampParts, place => .ok (⟨parts, place.indicator⟩, false)
  | _, _ => .error e

def putDate (date : OciDate) (r : Requested) (place : Place r) : Except OciError (Place r × Bool) :=
  putParts .dateInOtherField date.dateTime.parts r place

def putTimestamp (stamp : OciDateTime) (r : Requested) (place : Place r) :
    Except OciError (Place r × Bool) :=
  putParts .timestampInOtherField stamp.parts r place

/-- A row of `materialize`: the place, and whether its value needs a read of its own. -/
def fillCell (rowSize : ℕ) (staged : Staged) (r : Requested) (place : Place r) :
    Except OciError (Place r × Bool) :=
  match staged with
  | .null => .ok (⟨place.slot, nullIndicator⟩, false)
  | .number n => putNumber oci n r ⟨place.slot, 0⟩
  | .bytes _ _ => .ok (putText (staged.text rowSize) r ⟨place.slot, 0⟩)
  | .date date => putDate date r ⟨place.slot, 0⟩
  | .timestamp stamp => putTimestamp stamp r ⟨place.slot, 0⟩
  -- the value stayed behind its locator
  | .locator _ => .ok (⟨place.slot, noTotal⟩, true)

structure ColumnSlot where
  position : ℕ
  requested : Requested
  described : DescribedColumn
  kind : StageKind
  rowSize : ℕ
  staged : List Staged
  places : List (Place requested)
  wideRows : List Bool

structure Statement (V : Type) where
  metadataRead : Bool
  described : List DescribedColumn
  /-- The rows of the result, each with a cell for every column. -/
  result : List (List (Cell V))
  rowArraySize : ℕ
  /-- The rows that have been fetched, with the block that was fetched last. -/
  cursor : ℕ
  rowsFetched : ℕ
  slots : List ColumnSlot

def fillRows (rowSize : ℕ) (r : Requested) :
    List Staged → List (Place r) → Except OciError (List (Place r) × List Bool)
  | staged :: stages, place :: places => do
    let filled ← fillCell oci rowSize staged r place
    let rest ← fillRows rowSize r stages places
    pure (filled.1 :: rest.1, filled.2 :: rest.2)
  | _, places => .ok (places, [])

namespace ColumnSlot
variable (slot : ColumnSlot)

def stage (block : List (List (Cell V))) : Except OciError ColumnSlot := do
  let staged ← block.mapM fun row =>
    match row[slot.position - 1]? with
    | some cell =>
      match oci.define slot.described slot.kind slot.rowSize cell with
      | some staged => Except.ok staged
      | none => .error .fetch
    | none => .error .fetch
  pure { slot with staged }

def materialize : Except OciError ColumnSlot := do
  let filled ← fillRows oci slot.rowSize slot.requested slot.staged slot.places
  pure ⟨slot.position, slot.requested, slot.described, slot.kind, slot.rowSize, slot.staged,
    filled.1, filled.2⟩

def requireWide (column row : ℕ) : Except OciError Unit :=
  if slot.wideRows[row]? = some true then .ok () else .error (.noSuchRead column row)

end ColumnSlot

namespace Statement
variable (s : Statement V)

def executed (described : List DescribedColumn) (result : List (List (Cell V))) (size : ℕ) :
    Statement V :=
  ⟨true, described, result, if size = 0 then 1 else size, 0, 0, []⟩

/-- `bind_column` with the caller's places. -/
def bindColumn (index : ℕ) (requested : Requested) (places : List (Place requested)) :
    Except OciError (Statement V) :=
  if s.metadataRead = false then .error .undescribed
  else
    match (if index = 0 then none else s.described[index - 1]?) with
    | none => .error (.pastSelectList index)
    | some described =>
      if s.slots.any fun slot => slot.position == index then .error (.boundTwice index)
      else do
        let kind ← pickStage requested described
        let rowSize :=
          if kind = .text ∨ kind = .binary then stageWidth described requested.capacity else 0
        pure { s with slots := s.slots ++ [⟨index, requested, described, kind, rowSize, [], places,
          []⟩] }

def nextBlock : List (List (Cell V)) := (s.result.drop s.cursor).take s.rowArraySize

/-- `fetch`: nothing is left, or the next block of rows. -/
def fetch : Except OciError (Option (Statement V)) :=
  if s.nextBlock.isEmpty then .ok none
  else do
    let staged ← s.slots.mapM fun slot => slot.stage oci s.nextBlock
    let slots ← staged.mapM fun slot => slot.materialize oci
    pure (some { s with
      cursor := s.cursor + s.nextBlock.length
      rowsFetched := s.nextBlock.length
      slots })

def wideSlot (column : ℕ) : Except OciError ColumnSlot :=
  match s.slots.find? fun slot => slot.position == column with
  | some slot => .ok slot
  | none => .error (.noColumn column)

end Statement

/-- What has come of a read after some rounds: none is that it goes on. -/
abbrev Outcome (α : Type) : Type := Option (Except OciError α)

/-- `OCILobRead` of `amount` bytes: the next ones at the offset, which counts from one, and none at
the end. -/
def lobRead (content : List UInt8) (offset : UInt32) (amount : ℕ) : Option (List UInt8) :=
  if offset = 0 then none else some ((content.drop (offset.toNat - 1)).take amount)

def chunkSize : ℕ := 4096

/-- The loop of `read_locator_text` and `read_locator_bytes`; a round that transfers nothing is the
only end of the value. -/
def readLocator (e : OciError) (content : List UInt8) :
    ℕ → UInt32 → List UInt8 → Outcome (List UInt8)
  | 0, _, _ => none
  | rounds + 1, offset, out =>
    match lobRead content offset chunkSize with
    | none => some (.error e)
    | some chunk =>
      if chunk.isEmpty then some (.ok (out ++ chunk))
      else readLocator e content rounds (offset + UInt32.ofNat chunk.length) (out ++ chunk)

/-- The value of a row behind the check that one is owed: a locator of the reader's own kind is
read, a number is spelled, and anything else is taken from the staging. -/
def ColumnSlot.longValue (slot : ColumnSlot) (wide : StageKind) (e : OciError) (rounds row : ℕ) :
    Outcome (List UInt8) :=
  match slot.staged[row]? with
  | none => some (.ok [])
  | some (.locator content) =>
    if slot.kind = wide then readLocator e content rounds 1 [] else some (.ok [])
  | some (.number n) => some (numberToText oci n)
  | some staged => some (.ok (staged.text slot.rowSize))

namespace Statement
variable (s : Statement V)

def readLong (wide : StageKind) (e : OciError) (rounds column row : ℕ) : Outcome (List UInt8) :=
  match s.wideSlot column with
  | .error e' => some (.error e')
  | .ok slot =>
    match slot.requireWide column row with
    | .error e' => some (.error e')
    | .ok () => slot.longValue oci wide e rounds row

def readLongText (rounds column row : ℕ) : Outcome (List UInt8) :=
  s.readLong oci .wideText .characterLob rounds column row

def readLongBytes (rounds column row : ℕ) : Outcome (List UInt8) :=
  s.readLong oci .wideBinary .binaryLob rounds column row

end Statement

def Place.asks : (r : Requested) → Place r → Bool
  | .chars capacity, place => place.indicator = noTotal || (capacity : ℤ) - 1 < place.indicator
  | .bytes capacity, place => place.indicator = noTotal || (capacity : ℤ) < place.indicator
  | _, _ => false

/-- `write` of the binding that a buffer belongs to. -/
def Statement.write (s : Statement V) (rounds column row : ℕ) :
    (r : Requested) → Place r → Outcome r.Slot
  | .chars capacity, place =>
    if place.asks (.chars capacity) then s.readLongText oci rounds column row
    else some (.ok (place.slot.take place.indicator.toNat))
  | .bytes capacity, place =>
    if place.asks (.bytes capacity) then s.readLongBytes oci rounds column row
    else some (.ok (place.slot.take place.indicator.toNat))
  | _, place => some (.ok place.slot)

/-- `finalize` of an optional: none is NULL. -/
def Statement.finalize (s : Statement V) (rounds column row : ℕ) (r : Requested) (place : Place r) :
    Outcome (Option r.Slot) :=
  if place.indicator = nullIndicator then some (.ok none)
  else (s.write oci rounds column row r place).map fun result => result.map some

end

end Uniorm.Oracle
