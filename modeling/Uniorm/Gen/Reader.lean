import Uniorm.Ddl.Keys
import Uniorm.Gen.Schema
import Uniorm.Foundation.Action

/-! # Reading the schema of a script

The generator reads its schema through the reads of a catalog, and a script
answers them with the tables it makes. A table is listed under its place and
then read by that place, one kind of row after the other; the flag of the key
is set on the columns of the table by the names of its key.
-/
namespace Uniorm.Gen

open Foundation Sql Builder Schema Ddl

/-- The reads the generator makes of a catalog, where none of them fails. -/
structure TableReads where
  tables : Text → Text → List TableRow
  tableColumns : TableRef → List ColumnRow
  primaryKey : TableRef → List Text
  foreignKeys : TableRef → List ForeignKeyRow
  indexes : TableRef → List IndexRow

namespace DdlMeta

/-- A table whose place is not said is in every place that is asked for. -/
def excluded (asked said : Text) : Bool :=
  !asked.isEmpty && !said.isEmpty && foldLower asked != foldLower said

def tables (out : DdlSnapshot) (catalog schema : Text) : List TableRow :=
  (out.tables.filter fun table =>
    !excluded catalog table.ref.catalog && !excluded schema table.ref.schema).map fun table =>
      ⟨table.ref.catalog, table.ref.schema, table.ref.name⟩

def find (out : DdlSnapshot) (ref : TableRef) : Option DdlTable :=
  out.tables.find? fun table => table.ref = ref

/-- One kind of row of the table of a place; none where there is no such table. -/
def rows {α : Type} (read : DdlTable → List α) (out : DdlSnapshot) (ref : TableRef) : List α :=
  ((find out ref).map read).getD []

end DdlMeta

/-- `ddl_meta`: the tables of a script behind the reads of a catalog. -/
def ddlMeta (out : DdlSnapshot) : TableReads where
  tables := DdlMeta.tables out
  tableColumns := DdlMeta.rows DdlTable.columns out
  primaryKey := DdlMeta.rows DdlTable.primaryKey out
  foreignKeys := DdlMeta.rows DdlTable.foreignKeys out
  indexes := DdlMeta.rows DdlTable.indexes out

structure ReadOptions where
  catalog : Text := []
  schema : Text := []
  tables : List Text := []

/-- `table_model` with the place it was listed under. -/
structure ReadTable where
  ref : TableRef
  model : TableModel
  deriving DecidableEq, Repr

def refOf (row : TableRow) : TableRef := ⟨row.catalog, row.schema, row.name⟩

/-- The table a name asks for: the one spelled so, or one that differs in case only. -/
def selectTable (all : List TableRow) (want : Text) : Except Text TableRow :=
  match all.find? fun have' => have'.name == want with
  | some hit => .ok hit
  | none =>
    match all.find? fun have' => foldLower have'.name == foldLower want with
    | some hit => .ok hit
    | none => .error ("table not found: ".toList ++ want)

def listTables (md : TableReads) (opts : ReadOptions) : Except Text (List TableRow) :=
  let all := md.tables opts.catalog opts.schema
  if opts.tables.isEmpty then .ok all else opts.tables.mapM (selectTable all)

def columnOf (row : ColumnRow) : ColumnModel :=
  { shape := row.shape, typeName := row.typeName, size := row.size, decimals := row.decimals,
    defaultValue := row.defaultValue }

def readColumns (md : TableReads) (ref : TableRef) : List ColumnModel :=
  (md.tableColumns ref).map columnOf

/-- One name of the key: the first column spelled so is flagged; where there is none, the name is
reported. -/
def readPrimaryKey (read : List ColumnModel × List Text) (pk : Text) : List ColumnModel × List Text :=
  match read.1.findIdx? fun column => column.shape.name == pk with
  | some i => (read.1.modify i fun column => { column with primaryKey := true }, read.2)
  | none =>
    match read.1.find? fun column => foldLower column.shape.name == foldLower pk with
    | some alt =>
      (read.1, read.2 ++ [pk ++ " (only case differs from '".toList ++ alt.shape.name ++ "')".toList])
    | none => (read.1, read.2 ++ [pk])

def readPrimaryKeys (md : TableReads) (ref : TableRef) (columns : List ColumnModel) :
    List ColumnModel × List Text :=
  (md.primaryKey ref).foldl readPrimaryKey (columns, [])

/-- One pair of columns, with the other pairs that reference its table. -/
def readForeignKey (models : List FkModel) (row : ForeignKeyRow) : List FkModel :=
  match models.findIdx? fun model => model.pkTable == row.referencedTable with
  | some i => models.modify i fun model =>
      { model with columns := model.columns ++ [(row.column, row.referencedColumn)] }
  | none => models ++ [⟨row.referencedTable, [(row.column, row.referencedColumn)]⟩]

def readForeignKeys (md : TableReads) (ref : TableRef) : List FkModel :=
  (md.foreignKeys ref).foldl readForeignKey []

def readIndexes (md : TableReads) (ref : TableRef) : List IndexModel :=
  ((md.indexes ref).mergeSort fun a b => notAfter a.name b.name).map fun row =>
    ⟨row.name, row.columns, row.unique⟩

def warnPattern (flag value : Text) : List Text :=
  if value.contains '%' then
    [flag ++ "='".toList ++ value ++
      "': catalog names are asked as names, '%' is not a wildcard here".toList]
  else []

def readTable (md : TableReads) (row : TableRow) : ReadTable × List Text :=
  let columns := readColumns md (refOf row)
  let (columns, unmatched) := readPrimaryKeys md (refOf row) columns
  (⟨refOf row, ⟨row.name, columns, readForeignKeys md (refOf row), readIndexes md (refOf row)⟩⟩,
    (if columns.isEmpty then ["table has no columns: ".toList ++ row.name] else []) ++
      unmatched.map fun pk => row.name ++ ": primary key names no such column: ".toList ++ pk)

/-- `read_schema`: the tables and the warnings, or the error it throws. -/
def readSchema (md : TableReads) (opts : ReadOptions) : Except Text (List ReadTable × List Text) :=
  (listTables md opts).map fun rows =>
    let read := rows.map (readTable md)
    (read.map Prod.fst, warnPattern "--catalog".toList opts.catalog ++
      warnPattern "--schema".toList opts.schema ++ read.flatMap Prod.snd)

def leads (columns : List ColumnModel) (i : ℕ) (name : Text) : Bool :=
  (columns.take i).all fun column => column.shape.name != name

def flag (column : ColumnModel) (set : Bool) : ColumnModel :=
  { column with primaryKey := column.primaryKey || set }

theorem flag_false (column : ColumnModel) : flag column false = column := by
  rw [flag, Bool.or_false]

theorem leads_iff {columns : List ColumnModel} {i : ℕ} {name : Text} : leads columns i name = true ↔
    ∀ j < i, ∀ column, columns[j]? = some column → column.shape.name ≠ name := by
  rw [leads, List.all_eq_true]
  constructor
  · intro h j hj column hcolumn
    have hmem : column ∈ columns.take i := List.mem_iff_getElem?.mpr ⟨j, by
      rw [List.getElem?_take_of_lt hj, hcolumn]⟩
    exact bne_iff_ne.mp (h column hmem)
  · intro h column hmem
    obtain ⟨j, hj⟩ := List.mem_iff_getElem?.mp hmem
    rw [List.getElem?_take] at hj
    split_ifs at hj with hlt
    exact bne_iff_ne.mpr (h j hlt column hj)

theorem leads_congr {columns columns' : List ColumnModel}
    (h : columns.map (fun column : ColumnModel => column.shape.name) =
      columns'.map fun column : ColumnModel => column.shape.name) (i : ℕ) (name : Text) :
        leads columns i name = leads columns' i name := by
  have htake := congrArg (fun names : List Text => (names.take i).all (· != name)) h
  simpa [leads, ← List.map_take, List.all_map, Function.comp_def] using htake

/-- One name of the key sets the flag of the first column that is spelled so. -/
theorem readPrimaryKey_getElem? (columns : List ColumnModel) (notes : List Text) (pk : Text) (i : ℕ) :
    (readPrimaryKey (columns, notes) pk).1[i]? = (columns[i]?).map fun column =>
      flag column (column.shape.name == pk && leads columns i pk) := by
  rw [readPrimaryKey]
  cases hfind : columns.findIdx? fun column => column.shape.name == pk with
  | none =>
    have hnone := List.findIdx?_eq_none_iff.mp hfind
    have hsame :
        (match columns.find? fun column : ColumnModel => foldLower column.shape.name == foldLower pk with
        | some alt => (columns, notes ++
            [pk ++ " (only case differs from '".toList ++ alt.shape.name ++ "')".toList])
        | none => (columns, notes ++ [pk])).1 = columns := by
      split <;> rfl
    refine (congrArg (fun columns => columns[i]?) hsame).trans ?_
    cases hcolumn : columns[i]? with
    | none => rfl
    | some column =>
      have hname := hnone column (List.mem_of_getElem? hcolumn)
      rw [Option.map_some, hname, Bool.false_and, flag_false]
  | some k =>
    obtain ⟨hlt, hname, hbefore⟩ := List.findIdx?_eq_some_iff_getElem.mp hfind
    change (columns.modify k fun column => { column with primaryKey := true })[i]? = _
    rw [List.getElem?_modify]
    cases hcolumn : columns[i]? with
    | none => rfl
    | some column =>
      by_cases hki : k = i
      · subst hki
        obtain rfl : columns[k] = column := (List.getElem?_eq_some_iff.mp hcolumn).2
        have hleads : leads columns k pk = true := by
          refine leads_iff.mpr fun j hj column hat heq => ?_
          obtain ⟨hlt', rfl⟩ := List.getElem?_eq_some_iff.mp hat
          exact hbefore j hj (beq_iff_eq.mpr heq)
        simp [hname, hleads, flag]
      · have hother : (column.shape.name == pk && leads columns i pk) = false := by
          rw [Bool.and_eq_false_iff, beq_eq_false_iff_ne]
          by_cases heq : column.shape.name = pk
          · refine .inr ?_
            rw [← Bool.not_eq_true, leads_iff]
            intro hall
            obtain ⟨hlt', rfl⟩ := List.getElem?_eq_some_iff.mp hcolumn
            rcases Nat.lt_or_gt_of_ne hki with hless | hmore
            · exact hall k hless columns[k] (List.getElem?_eq_getElem hlt) (beq_iff_eq.mp hname)
            · exact hbefore i hmore (beq_iff_eq.mpr heq)
          · exact .inl heq
        simp [hki, hother, flag_false]

theorem readPrimaryKeys_getElem? (keys : List Text) (columns : List ColumnModel) (notes : List Text)
    (i : ℕ) : (keys.foldl readPrimaryKey (columns, notes)).1[i]? = (columns[i]?).map fun column =>
      flag column (keys.contains column.shape.name && leads columns i column.shape.name) := by
  induction keys generalizing columns notes with
  | nil =>
    cases hcolumn : columns[i]? with
    | none => simp [hcolumn]
    | some column => simp [hcolumn, flag_false]
  | cons pk keys ih =>
    have hnames : (readPrimaryKey (columns, notes) pk).1.map (fun column => column.shape.name) =
        columns.map fun column => column.shape.name := by
      refine List.ext_getElem? fun j => ?_
      rw [List.getElem?_map, readPrimaryKey_getElem?, List.getElem?_map, Option.map_map]
      rfl
    rw [List.foldl_cons, ih, readPrimaryKey_getElem?, Option.map_map]
    cases columns[i]? with
    | none => rfl
    | some column =>
      have hleads : leads (readPrimaryKey (columns, notes) pk).1 i column.shape.name =
          leads columns i column.shape.name := leads_congr hnames i _
      simp only [Option.map_some, Function.comp_apply, flag, hleads, List.contains_cons]
      by_cases heq : column.shape.name = pk
      · subst heq
        cases leads columns i column.shape.name <;> simp
      · have hother : (column.shape.name == pk) = false := beq_eq_false_iff_ne.mpr heq
        simp [hother]

theorem mem_listTables {md : TableReads} {opts : ReadOptions} {rows : List TableRow}
    (h : listTables md opts = .ok rows) {row : TableRow} (hrow : row ∈ rows) :
    row ∈ md.tables opts.catalog opts.schema := by
  rw [listTables] at h
  split_ifs at h with hall
  · obtain rfl := Except.ok.inj h
    exact hrow
  · obtain ⟨want, -, hwant⟩ := exists_of_forall₂ (forall₂_of_mapM h) hrow
    rw [selectTable] at hwant
    split at hwant
    · rename_i hfind
      obtain rfl := Except.ok.inj hwant
      exact List.mem_of_find?_eq_some hfind
    · split at hwant
      · rename_i hfind
        obtain rfl := Except.ok.inj hwant
        exact List.mem_of_find?_eq_some hfind
      · cases hwant

/-- A table that is listed is found by its place. -/
theorem find_of_mem_tables {out : DdlSnapshot} {catalog schema : Text} {row : TableRow}
    (h : row ∈ DdlMeta.tables out catalog schema) :
    ∃ (slot : ℕ) (table : DdlTable), out.tables[slot]? = some table ∧ table.ref = refOf row ∧
      DdlMeta.find out (refOf row) = some table := by
  obtain ⟨listed, hlisted, rfl⟩ := List.mem_map.mp h
  have hmem := List.mem_of_mem_filter hlisted
  cases hfind : DdlMeta.find out (refOf ⟨listed.ref.catalog, listed.ref.schema, listed.ref.name⟩) with
  | none =>
    have hnone := List.find?_eq_none.mp hfind listed hmem
    simp [refOf] at hnone
  | some table =>
    obtain ⟨slot, hslot⟩ := List.mem_iff_getElem?.mp (List.mem_of_find?_eq_some hfind)
    have href := List.find?_some (p := fun found : DdlTable => found.ref = refOf
      ⟨listed.ref.catalog, listed.ref.schema, listed.ref.name⟩) hfind
    exact ⟨slot, table, hslot, of_decide_eq_true href, rfl⟩

/-- The columns as they are read, marked by the keys of the raw table: a column is nullable where its
own definition lets it be and no name of the key is its name in any case, and it is flagged where it
is the first column that is spelled as a name of the key. -/
structure KeyMarked (raw : DdlTable) (columns : List ColumnModel) : Prop where
  once : raw.primaryKey.Nodup
  length : columns.length = raw.columns.length
  nullable : ∀ {i : ℕ} {row : ColumnRow} {column : ColumnModel}, raw.columns[i]? = some row →
    columns[i]? = some column → (column.shape.nullable = true ↔
      row.shape.nullable = true ∧ ¬ InKey raw.primaryKey row)
  flagged : ∀ {i : ℕ} {row : ColumnRow} {column : ColumnModel}, raw.columns[i]? = some row →
    columns[i]? = some column → (column.primaryKey = true ↔ row.shape.name ∈ raw.primaryKey ∧
      ∀ j < i, ∀ row', raw.columns[j]? = some row' → row'.shape.name ≠ row.shape.name)

theorem keyMarked_of_keyedTable {raw table : DdlTable} (h : KeyedTable raw table) :
    KeyMarked raw (table.primaryKey.foldl readPrimaryKey (table.columns.map columnOf, [])).1 := by
  have hat : ∀ i : ℕ, (table.primaryKey.foldl readPrimaryKey (table.columns.map columnOf, [])).1[i]? =
      (raw.columns[i]?).map fun row => flag (columnOf (keyedRow table.primaryKey row))
        (table.primaryKey.contains row.shape.name &&
          leads (table.columns.map columnOf) i row.shape.name) := by
    intro i
    rw [readPrimaryKeys_getElem?, h.columns, List.getElem?_map, List.getElem?_map, Option.map_map,
      Option.map_map]
    refine Option.map_congr fun row _ => ?_
    have hname : (columnOf (keyedRow table.primaryKey row)).shape.name = row.shape.name :=
      keyedRow_name _ _
    simp only [Function.comp_apply, hname]
  have hread : ∀ {i : ℕ} {row : ColumnRow} {column : ColumnModel}, raw.columns[i]? = some row →
      (table.primaryKey.foldl readPrimaryKey (table.columns.map columnOf, [])).1[i]? = some column →
        column =
          flag (columnOf (keyedRow table.primaryKey row)) (table.primaryKey.contains row.shape.name &&
          leads (table.columns.map columnOf) i row.shape.name) := by
    intro i row column hrow hcolumn
    rw [hat, hrow] at hcolumn
    exact (Option.some.inj hcolumn).symm
  constructor
  · exact h.keys ▸ h.once
  · have hnone : ∀ i : ℕ,
        (table.primaryKey.foldl readPrimaryKey (table.columns.map columnOf, [])).1[i]? = none ↔
        raw.columns[i]? = none := by
      intro i
      rw [hat, Option.map_eq_none_iff]
    simp only [List.getElem?_eq_none_iff] at hnone
    exact Nat.le_antisymm ((hnone _).mpr (Nat.le_refl _)) ((hnone _).mp (Nat.le_refl _))
  · intro i row column hrow hcolumn
    rw [hread hrow hcolumn, ← h.keys]
    exact keyedRow_nullable _ _
  · intro i row column hrow hcolumn
    rw [hread hrow hcolumn, ← h.keys]
    have hflag :
        (flag (columnOf (keyedRow table.primaryKey row)) (table.primaryKey.contains row.shape.name &&
        leads (table.columns.map columnOf) i row.shape.name)).primaryKey =
          (table.primaryKey.contains row.shape.name && leads (table.columns.map columnOf) i
            row.shape.name) :=
      Bool.false_or _
    rw [hflag, Bool.and_eq_true, List.contains_iff_mem, leads_iff]
    refine and_congr_right fun _ => ?_
    have hcolumns : ∀ j : ℕ, (table.columns.map columnOf)[j]? = (raw.columns[j]?).map fun row =>
        columnOf (keyedRow table.primaryKey row) := by
      intro j
      rw [h.columns, List.map_map, List.getElem?_map]
      rfl
    constructor
    · intro hall j hj row' hrow'
      have hne := hall j hj (columnOf (keyedRow table.primaryKey row')) (by rw [hcolumns, hrow']; rfl)
      have hname : (columnOf (keyedRow table.primaryKey row')).shape.name = row'.shape.name :=
        keyedRow_name _ _
      rwa [hname] at hne
    · intro hall j hj column' hcolumn'
      rw [hcolumns] at hcolumn'
      obtain ⟨row', hrow', rfl⟩ := Option.map_eq_some_iff.mp hcolumn'
      have hname : (columnOf (keyedRow table.primaryKey row')).shape.name = row'.shape.name :=
        keyedRow_name _ _
      rw [hname]
      exact hall j hj row' hrow'

def KeysMark (commands : List Command) (out : DdlSnapshot) (read : List ReadTable) : Prop :=
  ∀ table ∈ read, ∃ (slot : ℕ) (made raw : DdlTable), out.tables[slot]? = some made ∧ made.ref = table.ref ∧
    (({} : Content).run (commands.map Command.withoutKeys)).out.tables[slot]? = some raw ∧
    made.primaryKey = raw.primaryKey ∧ KeyMarked raw table.model.columns

/-- The keys that a script declares mark the columns that are read of it. -/
theorem keys_mark_columns [Dangling] {script : Text} {out : DdlSnapshot}
    (hparse : schemaOf script = some out)
    {opts : ReadOptions} {read : List ReadTable} {warnings : List Text}
    (hread : readSchema (ddlMeta out) opts = .ok (read, warnings)) :
    ∃ commands, Commands {} script commands ∧ KeysMark commands out read := by
  rw [schemaOf_eq, schemaFrom_eq_some_iff] at hparse
  obtain ⟨commands, hcommands, rfl⟩ := hparse
  refine ⟨commands, hcommands, fun table htable => ?_⟩
  obtain ⟨rows, hrows, heq⟩ := map_eq_ok.mp hread
  obtain ⟨rfl, -⟩ := Prod.mk.inj heq
  obtain ⟨both, hboth, rfl⟩ := List.mem_map.mp htable
  obtain ⟨row, hrow, rfl⟩ := List.mem_map.mp hboth
  obtain ⟨slot, made, hslot, href, hfind⟩ := find_of_mem_tables (mem_listTables hrows hrow)
  obtain ⟨raw, hraw, hkeyed⟩ := keyedTable_of_commands hcommands hslot
  refine ⟨slot, made, raw, hslot, href, hraw, hkeyed.keys, ?_⟩
  have hcolumns : (readTable (ddlMeta (({} : Content).run commands).finish) row).1.model.columns =
      (made.primaryKey.foldl readPrimaryKey (made.columns.map columnOf, [])).1 := by
    simp only [readTable, readPrimaryKeys, readColumns, ddlMeta, DdlMeta.rows, hfind, Option.map_some,
      Option.getD_some]
  rw [hcolumns]
  exact keyMarked_of_keyedTable hkeyed

/-- The table of `create table t (Id int, n int, primary key (Id))`. -/
def keyOfId : DdlTable where
  ref := ⟨[], [], "t".toList⟩
  columns := [{ shape := ⟨"Id".toList, .integer, false⟩, typeName := "INT".toList },
    { shape := ⟨"n".toList, .integer, true⟩, typeName := "INT".toList }]
  primaryKey := ["Id".toList]

def readOfId : ReadTable where
  ref := ⟨[], [], "t".toList⟩
  model := ⟨"t".toList, keyOfId.columns.map fun row =>
    { columnOf row with primaryKey := row.shape.name = "Id".toList }, [], []⟩

section Small
attribute [local instance] Dangling.small

theorem keyOfId_marked : ∃ commands,
    Commands {} "create table t (Id int, n int, primary key (Id))".toList commands ∧
      KeysMark commands { tables := [keyOfId] } [readOfId] := by
  have hparse : schemaOf "create table t (Id int, n int, primary key (Id))".toList =
      some { tables := [keyOfId] } := by decide +kernel
  exact @keys_mark_columns _ _ _ hparse {} _ [] (by decide +kernel)

/-- A key that is spelled in another case does not flag its column; one that is given in two spellings
holds both. -/
theorem keys_spelled_apart :
    (schemaOf "create table t (Id int, primary key (id))".toList).map (fun out =>
      (readSchema (ddlMeta out) {}).toOption.map fun read => read.1.map fun table =>
        table.model.columns.map fun column => (column.shape.nullable, column.primaryKey)) =
          some (some [[(false, false)]]) ∧
    (schemaOf "create table t (id int primary key, primary key (ID))".toList).map (fun out =>
      out.tables.map DdlTable.primaryKey) = some [["id".toList, "ID".toList]] := by
  decide +kernel

end Small

end Uniorm.Gen
