import Mathlib.Data.List.Nodup
import Uniorm.Libpq.Blocks

/-! # Block reads lose nothing

The columns of a table hold texts and byte strings. However long its values are, however wide its
columns are declared and however many rows a block takes, every row is read once and in its order,
each of its values in full, and no access leaves the place of a row.
-/
namespace Uniorm.Libpq

open Foundation Schema Value

namespace PgType
variable (native : PgType)

def served (value : List UInt8) : List UInt8 := if native = .bytea then hexTextOf value else value

/-- The room that a place of `capacity` bytes has for a value: a text keeps one for its
terminator. -/
def room (capacity : ℕ) : ℕ := if native = .bytea then capacity else capacity - 1

def memberType : PlainType := if native = .bytea then .bytes else .string

/-- A value as a `sql_value`. -/
def said : Option (List UInt8) → SqlValue
  | some value => if native = .bytea then .bytes value else .string value
  | none => .null

end PgType

/-- The value of a member as a `sql_value`. -/
def memberSaid (m : MemberType) (value : m.Carrier) : SqlValue :=
  match m.value? value with
  | some value => m.representable.makeSqlValue value
  | none => .null

def Fields.sqlValues : (bindings : List Binding) → Fields bindings → List SqlValue
  | [], _ => []
  | b :: bindings, fields => memberSaid b.type fields.1 :: sqlValues bindings fields.2

/-- A table with columns of texts and byte strings, as their values are. -/
structure TextTable where
  fields : List ResultField
  rows : List (List (Option (List UInt8)))
  aligned : ∀ row ∈ rows, row.length = fields.length
  textual : ∀ f ∈ fields, f.native = .bytea ∨ kindFor f.native.sqlType = .text

namespace TextTable

/-- The table as the server sends it. -/
def answer (table : TextTable) : PGresult where
  fields := table.fields
  tuples := table.rows.map fun row =>
    List.zipWith (fun f value => value.map f.native.served) table.fields row
  aligned := by
    intro tuple htuple
    obtain ⟨row, hrow, rfl⟩ := List.mem_map.mp htuple
    rw [List.length_zipWith, table.aligned row hrow, Nat.min_self]

variable (table : TextTable)

def value (row field : ℕ) : Option (List UInt8) := ((table.rows[row]?).bind (·[field]?)).join

def native (field : ℕ) : PgType := table.answer.native field

/-- A value is read again if the place in its column has no room for it. -/
def long (capacity row field : ℕ) : List LongRead :=
  match table.value row field with
  | some value => if (table.native field).room capacity < value.length then [⟨row, field + 1⟩] else []
  | none => []

/-- A member for a column, optional or not. -/
def binding (pick : ℕ × Bool) : Binding where
  type := match pick.2 with
    | true => .optional (.plain (table.native pick.1).memberType)
    | false => .required (.plain (table.native pick.1).memberType)
  column := pick.1 + 1

def picked (picks : List (ℕ × Bool)) (row : ℕ) : Option (List SqlValue) :=
  picks.mapM fun pick =>
    if table.value row pick.1 = none ∧ pick.2 = false then none
    else some ((table.native pick.1).said (table.value row pick.1))

/-- The bytes in a place of a member. -/
def fieldCapacity (field : ℕ) : ℕ :=
  if table.native field = .bytea then binarySlot table.answer.columnMeta[field]?
  else stringSlot table.answer.columnMeta[field]?

/-- The bytes in a place of a `result_set`. -/
def columnCapacity (field : ℕ) : ℕ :=
  match table.answer.columnMeta[field]? with
  | some info => (columnBuffer info 0).capacity
  | none => 0

end TextTable

section
variable {strtod : List UInt8 → Option (BitVec 64)} {table : TextTable} {native : PgType} {field : ℕ}

theorem bytesOf_served (native : PgType) (value : List UInt8) :
    bytesOf (native.served value) (native = .bytea) = .ok value := by
  unfold PgType.served
  by_cases hbytea : native = .bytea
  · rw [if_pos hbytea, decide_eq_true hbytea]
    exact bytesOf_hexTextOf value
  · rw [if_neg hbytea, decide_eq_false hbytea]
    rfl

variable (strtod) in
theorem typedValue_served (value : List UInt8) :
    (typedValue strtod native.memberType native (native.served value)).map
      native.memberType.sqlValue = some (native.said (some value)) := by
  by_cases hbytea : native = .bytea
  · have htype : native.memberType = .bytes := if_pos hbytea
    rw [htype, typedValue, bytesOf_served, PgType.said, if_pos hbytea]
    rfl
  · have htype : native.memberType = .string := if_neg hbytea
    rw [htype, typedValue, PgType.said, if_neg hbytea, PgType.served, if_neg hbytea]
    rfl

variable (strtod) in
theorem memberValue_served (table : TextTable) (cell : Option (List UInt8)) (pick : ℕ × Bool) :
    (memberValue strtod (table.binding pick).type (table.native pick.1)
      (cell.map (table.native pick.1).served)).map (memberSaid (table.binding pick).type) =
      if cell = none ∧ pick.2 = false then none else some ((table.native pick.1).said cell) := by
  rcases pick with ⟨field, nullable⟩
  cases cell with
  | none =>
    cases nullable with
    | true => rfl
    | false => rfl
  | some value =>
    rw [if_neg (by simp), ← typedValue_served strtod]
    change Option.map _ (memberValue strtod _ _ (some _)) = _
    cases nullable with
    | true =>
      change ((typedValue strtod _ _ _ >>= fun slot => some slot).map some).map _ = _
      cases typedValue strtod (table.native field).memberType (table.native field)
        ((table.native field).served value) <;> rfl
    | false =>
      change (typedValue strtod _ _ _ >>= fun slot => some slot).map _ = _
      cases typedValue strtod (table.native field).memberType (table.native field)
        ((table.native field).served value) <;> rfl

/-- A `result_set` is given the value of a cell. -/
theorem cellValue_served (cell : Option (List UInt8)) :
    cellValue strtod (if native = .bytea then .bytes else .text) native (cell.map native.served) =
      some (native.said cell) := by
  cases cell with
  | none => rfl
  | some value =>
    by_cases hbytea : native = .bytea
    · rw [if_pos hbytea, Option.map_some, cellValue, dynamicValue, bytesOf_served, PgType.said,
        if_pos hbytea]
      rfl
    · rw [if_neg hbytea, Option.map_some, cellValue, dynamicValue, PgType.said, if_neg hbytea,
        PgType.served, if_neg hbytea]

namespace TextTable

theorem cell_answer (row field : ℕ) : table.answer.cell row field =
    (table.value row field).map (table.native field).served := by
  unfold PGresult.cell value native PGresult.native
  change (((table.rows.map _)[row]?).bind (·[field]?)).join =
    Option.map (((table.fields[field]?).map ResultField.native).getD (.other 0)).served _
  rw [List.getElem?_map]
  cases hrow : table.rows[row]? with
  | none => rfl
  | some values =>
    obtain ⟨hlt, hget⟩ := List.getElem?_eq_some_iff.mp hrow
    have hlength := table.aligned values (hget ▸ List.getElem_mem hlt)
    rw [Option.map_some, Option.bind_some, Option.bind_some, List.getElem?_zipWith]
    cases hfield : table.fields[field]? with
    | none =>
      have hlen := List.getElem?_eq_none_iff.mp hfield
      rw [List.getElem?_eq_none_iff.mpr (by omega)]
      rfl
    | some f =>
      cases hvalue : values[field]? with
      | none => rfl
      | some value => rfl

theorem kindFor_eq {info : ColumnInfo} (hinfo : table.answer.columnMeta[field]? = some info) :
    kindFor info.type = if table.native field = .bytea then .bytes else .text := by
  unfold PGresult.columnMeta at hinfo
  rw [List.getElem?_map] at hinfo
  obtain ⟨f, hf, rfl⟩ := Option.map_eq_some_iff.mp hinfo
  have hnative : table.native field = f.native := by
    unfold native PGresult.native
    rw [hf]
    rfl
  rw [hnative]
  rcases table.textual f (List.mem_of_getElem? hf) with hbytea | htext
  · rw [if_pos hbytea, hbytea]
    rfl
  · have hne : f.native ≠ .bytea := by
      intro heq
      rw [heq] at htext
      cases htext
    rw [if_neg hne]
    exact htext

theorem longRead_eq {shape : BufferKind × ℕ} (row : ℕ)
    (hkind : shape.1 = if table.native field = .bytea then .bytes else .chars) :
    longRead shape (table.answer.native field) row (field + 1) (table.answer.cell row field) =
      table.long shape.2 row field := by
  rw [table.cell_answer]
  change longRead shape (table.native field) _ _ _ = _
  unfold long
  cases hvalue : table.value row field with
  | none => rfl
  | some value =>
    have hbytes := bytesOf_served (table.native field) value
    by_cases hbytea : table.native field = .bytea
    · rw [if_pos hbytea] at hkind
      simp only [Option.map_some, longRead, tooLong, hkind, hbytes, PgType.room, if_pos hbytea,
        decide_eq_true_eq]
    · rw [if_neg hbytea] at hkind
      simp only [Option.map_some, longRead, tooLong, hkind, PgType.served, PgType.room, if_neg hbytea,
        decide_eq_true_eq]

theorem fieldsOf_picks (picks : List (ℕ × Bool)) (row : ℕ) :
    (fieldsOf strtod table.answer row (picks.map table.binding)).map (Fields.sqlValues _) =
      table.picked picks row := by
  unfold picked
  induction picks with
  | nil => rfl
  | cons pick picks ih =>
    have hvalue := memberValue_served strtod table (table.value row pick.1) pick
    rw [← table.cell_answer] at hvalue
    rw [List.mapM_cons, ← hvalue, ← ih, List.map_cons, fieldsOf]
    change Option.map _ (do
      let value ← memberValue strtod (table.binding pick).type (table.native pick.1)
        (table.answer.cell row pick.1)
      let values ← fieldsOf strtod table.answer row (picks.map table.binding)
      some (value, values)) = _
    cases memberValue strtod (table.binding pick).type (table.native pick.1)
      (table.answer.cell row pick.1) with
    | none => rfl
    | some value =>
      cases fieldsOf strtod table.answer row (picks.map table.binding) with
      | none => rfl
      | some values => rfl

theorem fieldsFit_picks (table : TextTable) (picks : List (ℕ × Bool)) :
    FieldsFit table.answer (picks.map table.binding) ↔
      (picks.map Prod.fst).Nodup ∧ ∀ pick ∈ picks, pick.1 < table.fields.length := by
  have hcolumns : (picks.map table.binding).map Binding.column =
      (picks.map Prod.fst).map (· + 1) := by
    rw [List.map_map, List.map_map]
    rfl
  constructor
  · intro h
    have hnodup := h.nodup
    rw [hcolumns] at hnodup
    refine ⟨List.Nodup.of_map _ hnodup, fun pick hpick => ?_⟩
    exact (h.inRange _ (List.mem_map_of_mem hpick)).2
  · rintro ⟨hnodup, hrange⟩
    refine ⟨?_, ?_⟩
    · rw [hcolumns]
      exact List.Nodup.map Nat.succ_injective hnodup
    · intro b hb
      obtain ⟨pick, hpick, rfl⟩ := List.mem_map.mp hb
      exact ⟨Nat.succ_pos _, hrange pick hpick⟩

theorem fieldsLong_picks (picks : List (ℕ × Bool)) (row : ℕ) :
    fieldsLong table.answer (picks.map table.binding) row =
      picks.flatMap fun pick => table.long (table.fieldCapacity pick.1) row pick.1 := by
  unfold fieldsLong
  rw [List.flatMap_map]
  congr 1
  funext pick
  have htype : (table.binding pick).type.representable.dbType = (table.native pick.1).memberType := by
    rcases pick with ⟨field, nullable⟩
    cases nullable <;> rfl
  have hshape : fieldShape table.answer (table.binding pick) =
      (fieldBuffer (table.native pick.1).memberType table.answer.columnMeta[pick.1]? 0).shape := by
    unfold fieldShape
    rw [htype]
    rfl
  rw [hshape]
  unfold fieldCapacity
  by_cases hbytea : table.native pick.1 = .bytea
  · have hmember : (table.native pick.1).memberType = .bytes := if_pos hbytea
    rw [hmember, if_pos hbytea]
    exact longRead_eq row (if_pos hbytea).symm
  · have hmember : (table.native pick.1).memberType = .string := if_neg hbytea
    rw [hmember, if_neg hbytea]
    exact longRead_eq row (if_neg hbytea).symm

variable (strtod table) in
theorem valuesOf_table (row : ℕ) {infos : List ColumnInfo} (field : ℕ)
    (hinfos : table.answer.columnMeta.drop field = infos) :
    valuesOf strtod table.answer row field (infos.map fun info => kindFor info.type) =
      some ((List.range' field infos.length).map fun i => (table.native i).said (table.value row i)) := by
  induction infos generalizing field with
  | nil => rfl
  | cons info infos ih =>
    have hinfo : table.answer.columnMeta[field]? = some info := by
      rw [← List.head?_drop, hinfos]
      rfl
    have hrest : table.answer.columnMeta.drop (field + 1) = infos := by
      rw [← List.tail_drop, hinfos]
      rfl
    rw [List.map_cons, valuesOf, ih (field + 1) hrest, table.cell_answer, kindFor_eq hinfo]
    change (cellValue strtod _ (table.native field) _ >>= _) = _
    rw [cellValue_served]
    rfl

variable (table) in
theorem valuesLong_table (row : ℕ) {infos : List ColumnInfo} (field : ℕ)
    (hinfos : table.answer.columnMeta.drop field = infos) :
    valuesLong table.answer row field infos =
      (List.range' field infos.length).flatMap fun i => table.long (table.columnCapacity i) row i := by
  induction infos generalizing field with
  | nil => rfl
  | cons info infos ih =>
    have hinfo : table.answer.columnMeta[field]? = some info := by
      rw [← List.head?_drop, hinfos]
      rfl
    have hrest : table.answer.columnMeta.drop (field + 1) = infos := by
      rw [← List.tail_drop, hinfos]
      rfl
    have hcapacity : table.columnCapacity field = (columnBuffer info 0).shape.2 := by
      unfold columnCapacity
      rw [hinfo]
      rfl
    rw [valuesLong, ih (field + 1) hrest, List.length_cons, List.range'_succ, List.flatMap_cons,
      hcapacity]
    congr 1
    apply longRead_eq
    change (kindFor info.type).bufferKind = _
    rw [kindFor_eq hinfo]
    split <;> rfl

theorem said_row {row : ℕ} {values : List (Option (List UInt8))} (hrow : table.rows[row]? = some values) :
    ((List.range table.fields.length).map fun i => (table.native i).said (table.value row i)) =
      List.zipWith (fun f value => f.native.said value) table.fields values := by
  obtain ⟨hlt, hget⟩ := List.getElem?_eq_some_iff.mp hrow
  have hlength := table.aligned values (hget ▸ List.getElem_mem hlt)
  apply List.ext_getElem
  · rw [List.length_map, List.length_range, List.length_zipWith, hlength, Nat.min_self]
  · intro i hi hi'
    rw [List.length_map, List.length_range] at hi
    have hvalue : table.value row i = values[i] := by
      unfold value
      rw [hrow, Option.bind_some, List.getElem?_eq_getElem (by omega), Option.join_some]
    have hnative : table.native i = table.fields[i].native := by
      unfold native PGresult.native
      change ((table.fields[i]?).map _).getD _ = _
      rw [List.getElem?_eq_getElem hi]
      rfl
    rw [List.getElem_map, List.getElem_range, List.getElem_zipWith, hvalue, hnative]

theorem map_range_rows :
    ((List.range table.rows.length).map fun row =>
      (List.range table.fields.length).map fun i => (table.native i).said (table.value row i)) =
      table.rows.map fun row => List.zipWith (fun f value => f.native.said value) table.fields row := by
  apply List.ext_getElem
  · rw [List.length_map, List.length_map, List.length_range]
  · intro row hrow hrow'
    rw [List.length_map] at hrow'
    rw [List.getElem_map, List.getElem_map, List.getElem_range]
    exact said_row (List.getElem?_eq_getElem hrow')

end TextTable

end

/-- Every row of a table is read once, in its order and with every value in full: by `fetch_rows`
into members that have a column each, and by `next` and `current`. A value is taken from its place
exactly when the place has room for it. -/
theorem block_reads_lossless (strtod : List UInt8 → Option (BitVec 64)) (table : TextTable)
    (rowArraySize : ℕ+) (picks : List (ℕ × Bool)) :
    Yields (do
        let rows ← fetchRows strtod rowArraySize (picks.map table.binding) table.answer
        pure (rows.map (Fields.sqlValues _)))
      (if (picks.map Prod.fst).Nodup ∧ ∀ pick ∈ picks, pick.1 < table.fields.length then
        (List.range table.rows.length).mapM (table.picked picks)
      else none)
      ((List.range table.rows.length).flatMap fun row =>
        picks.flatMap fun pick => table.long (table.fieldCapacity pick.1) row pick.1) ∧
    Yields (ResultSet.readAll strtod .ok rowArraySize table.answer)
      (some (table.rows.map fun row =>
        List.zipWith (fun f value => f.native.said value) table.fields row))
      ((List.range table.rows.length).flatMap fun row =>
        (List.range table.fields.length).flatMap fun field =>
          table.long (table.columnCapacity field) row field) := by
  have hrows : table.answer.tuples.length = table.rows.length := List.length_map _
  constructor
  · have hread : Yields (fetchRows strtod rowArraySize (picks.map table.binding) table.answer) _ _ :=
      fetchRows_spec rowArraySize.pos
    have hall := hread.map (List.map (Fields.sqlValues _))
    have hfit := table.fieldsFit_picks picks
    have hlong : fieldsLong table.answer (picks.map table.binding) = fun row =>
        picks.flatMap fun pick => table.long (table.fieldCapacity pick.1) row pick.1 :=
      funext (TextTable.fieldsLong_picks picks)
    rw [hrows, hlong] at hall
    by_cases h : FieldsFit table.answer (picks.map table.binding)
    · have hpicked : (fun row => (fieldsOf strtod table.answer row (picks.map table.binding)).map
          (Fields.sqlValues _)) = table.picked picks :=
        funext (TextTable.fieldsOf_picks picks)
      have hmap := map_mapM (fun row => fieldsOf strtod table.answer row (picks.map table.binding))
        (Fields.sqlValues _) (List.range table.rows.length)
      change Option.map _ _ = List.mapM (fun row => Option.map _ _) _ at hmap
      rw [if_pos h, hmap, hpicked] at hall
      rw [if_pos (hfit.mp h)]
      exact hall
    · rw [if_neg h] at hall
      rw [if_neg (mt hfit.mpr h)]
      exact hall
  · have hread : Yields (ResultSet.readAll strtod .ok rowArraySize table.answer) _ _ :=
      ResultSet.readAll_spec rowArraySize fun values hbad => by cases hbad
    have hcolumns : table.answer.columnMeta.length = table.fields.length := length_columnMeta
    have hvalues : ∀ row ∈ List.range table.rows.length,
        usedOf .ok (valuesOf strtod table.answer row 0 table.answer.kinds) =
          some ((List.range table.fields.length).map fun i =>
            (table.native i).said (table.value row i)) := by
      intro row _
      have hrow := TextTable.valuesOf_table strtod table row 0 List.drop_zero
      rw [hcolumns, ← List.range_eq_range'] at hrow
      unfold PGresult.kinds
      rw [hrow]
      rfl
    have hlong : (fun row => valuesLong table.answer row 0 table.answer.columnMeta) = fun row =>
        (List.range table.fields.length).flatMap fun field =>
          table.long (table.columnCapacity field) row field := by
      funext row
      have hrow := TextTable.valuesLong_table table row 0 List.drop_zero
      rwa [hcolumns, ← List.range_eq_range'] at hrow
    rw [hrows, hlong, mapM_eq_some hvalues, TextTable.map_range_rows] at hread
    exact hread

/-- A `varchar(1)` and a `bytea`, each with a value that is longer than its places. -/
def wideTable : TextTable where
  fields := [⟨.varchar, 5⟩, ⟨.bytea, 5⟩]
  rows := [[some (List.replicate 40 97), some [0, 255]], [some [97], some (List.replicate 33 7)]]
  aligned := by decide
  textual := by decide

/-- Both long values are read again, by the members as by a `result_set`. -/
theorem wide_values_are_read_again :
    Yields (do
        let rows ← fetchRows (fun _ => none) 1 ([(0, false), (1, true)].map wideTable.binding)
          wideTable.answer
        pure (rows.map (Fields.sqlValues _)))
      (some [[.string (List.replicate 40 97), .bytes [0, 255]],
        [.string [97], .bytes (List.replicate 33 7)]]) [⟨0, 1⟩, ⟨1, 2⟩] ∧
    Yields (ResultSet.readAll (fun _ => none) .ok 1 wideTable.answer)
      (some [[.string (List.replicate 40 97), .bytes [0, 255]],
        [.string [97], .bytes (List.replicate 33 7)]]) [⟨0, 1⟩, ⟨1, 2⟩] := by
  obtain ⟨hmembers, hvalues⟩ :=
    block_reads_lossless (fun _ => none) wideTable 1 [(0, false), (1, true)]
  have hdistinct : ([(0, false), (1, true)].map Prod.fst : List ℕ).Nodup ∧
      ∀ pick ∈ [(0, false), (1, true)], pick.1 < wideTable.fields.length := by decide
  rw [if_pos hdistinct] at hmembers
  exact ⟨hmembers, hvalues⟩

end Uniorm.Libpq
