import Uniorm.Ddl.History
import Uniorm.Ddl.WrittenTable

/-! # A schema that is written and read

A snapshot is written as one statement for each of its tables, every name
between quotes. Where each table is one that a script can say, and no table has
a name that the parser takes for an earlier one's, the parser reads the snapshot
back and has nothing to report.
-/
namespace Uniorm.Ddl

open Foundation Foundation.Scan Sql Builder Schema

def databaseText (database : Text) : Text :=
  if database = [] then [] else "use ".toList ++ (delimited .double database ++ ";\n".toList)

def scriptText (out : DdlSnapshot) : Text :=
  databaseText out.database ++ out.tables.flatMap tableText

def Apart (tables : List DdlTable) : Prop :=
  tables.Pairwise fun table later => names (parts later.ref) table.ref = false

instance (tables : List DdlTable) : Decidable (Apart tables) :=
  inferInstanceAs (Decidable (tables.Pairwise _))

/-- A schema that a script can say. -/
structure Writable [Dangling] (out : DdlSnapshot) : Prop where
  tables : ∀ table ∈ out.tables, WritableTable table
  apart : Apart out.tables

section Effects
variable (t : DdlTable)

theorem onTable_map_column (rows : List ColumnRow) :
    onTable (rows.map .column) t = { t with columns := t.columns ++ rows } := by
  induction rows generalizing t with
  | nil => simp [onTable]
  | cons row rows ih =>
    rw [List.map_cons, onTable, List.foldl_cons, ← onTable, ih]
    simp [Edit.onTable]

theorem onTable_map_key {keys : List Text} (h : (t.primaryKey ++ keys).Nodup) :
    onTable (keys.map .key) t = { t with primaryKey := t.primaryKey ++ keys } := by
  induction keys generalizing t with
  | nil => simp [onTable]
  | cons key keys ih =>
    have hnew : key ∉ t.primaryKey := fun hmem =>
      (List.nodup_append.mp h).2.2 key hmem key List.mem_cons_self rfl
    have hmark : markKey t key = { t with primaryKey := t.primaryKey ++ [key] } := by
      rw [markKey, if_neg (by simpa using hnew)]
    have hmore : (t.primaryKey ++ [key] ++ keys).Nodup := by
      rw [List.append_assoc]
      exact h
    rw [List.map_cons, onTable, List.foldl_cons, ← onTable, Edit.onTable, hmark, ih _ hmore]
    simp

theorem onTable_map_index (rows : List IndexRow) :
    onTable (rows.map .index) t = { t with indexes := t.indexes ++ rows } := by
  induction rows generalizing t with
  | nil => simp [onTable]
  | cons row rows ih =>
    rw [List.map_cons, onTable, List.foldl_cons, ← onTable, ih]
    simp [Edit.onTable]

theorem onTable_map_foreignKey (rows : List ForeignKeyRow) :
    onTable (rows.map .foreignKey) t = { t with foreignKeys := t.foreignKeys ++ rows } := by
  induction rows generalizing t with
  | nil => simp [onTable]
  | cons row rows ih =>
    rw [List.map_cons, onTable, List.foldl_cons, ← onTable, ih]
    simp [Edit.onTable]

/-- The columns of the key are not nullable already. -/
theorem WritableTable.applyKeys_eq [Dangling] {table : DdlTable} (h : WritableTable table) :
    applyKeys table = table := by
  have hcolumns : table.columns.map (fun row =>
      if table.primaryKey.any fun column => foldLower row.shape.name == foldLower column then
        { row with shape.nullable := false }
      else row) = table.columns := by
    refine (List.map_congr_left fun row hrow => ?_).trans (List.map_id _)
    split_ifs with hkey
    · obtain ⟨name, hname, hfold⟩ := List.any_eq_true.mp hkey
      have hnullable := h.nullable row hrow name hname (beq_iff_eq.mp hfold)
      rw [← hnullable]
      rfl
    · rfl
  rw [applyKeys, hcolumns]

theorem WritableTable.onTable_edits [Dangling] {table : DdlTable} (h : WritableTable table) :
    onTable (edits table ++ [.applyKeys]) (freshTable (parts table.ref)) = table := by
  have hkeys := onTable_map_key ⟨table.ref, table.columns, [], [], []⟩ h.distinct
  rw [freshTable_parts, edits, onTable_append, onTable_append, onTable_append, onTable_append,
    onTable_map_column, List.nil_append, hkeys, onTable_map_index, onTable_map_foreignKey]
  exact h.applyKeys_eq

end Effects

section Statements
variable {database : Text} {before : List DdlTable} {table : DdlTable}

def reached (database : Text) (tables : List DdlTable) : Progress := ⟨⟨⟨database, tables⟩, []⟩, {}⟩

theorem edits_silent (table : DdlTable) : ∀ e ∈ edits table ++ [.applyKeys],
    e.waits = [] ∧ ∀ sink : WarningSink, sink.edit e = sink := by
  intro e he
  simp only [edits, List.mem_append, List.mem_map, List.mem_singleton] at he
  rcases he with (⟨row, -, rfl⟩ | ⟨key, -, rfl⟩ | ⟨row, -, rfl⟩ | ⟨row, -, rfl⟩) | rfl
  all_goals exact ⟨rfl, fun _ => rfl⟩

theorem foldl_silent {items : List Edit} (h : ∀ e ∈ items, ∀ sink : WarningSink, sink.edit e = sink)
    (sink : WarningSink) : items.foldl WarningSink.edit sink = sink := by
  induction items with
  | nil => rfl
  | cons e items ih =>
    obtain ⟨he, hmore⟩ := List.forall_mem_cons.mp h
    rw [List.foldl_cons, he, ih hmore]

theorem carry_new {content : Content} {e : Effect} (h : findTable content.out.tables e.parts = none)
    (hcreates : e.creates = true) : content.carry e =
      { content with
        out.tables := content.out.tables ++ [e.table (freshTable e.parts)]
        pending := content.pending ++ waiting content.out.tables.length e.waits } := by
  rw [Content.carry, h]
  exact if_pos hcreates

/-- A statement for a table that is not there yet adds it. -/
theorem WritableTable.apply_reached [Dangling] (h : WritableTable table)
    (hnew : ∀ t ∈ before, names (parts table.ref) t.ref = false) :
    (reached database before).apply (.createTable (parts table.ref) (edits table ++ [.applyKeys])) =
      reached database (before ++ [table]) := by
  have hfind : findTable before (parts table.ref) = none := by
    rw [findTable, List.findIdx?_eq_none_iff]
    exact hnew
  have hwaits : (edits table ++ [Edit.applyKeys]).flatMap Edit.waits = [] :=
    List.flatMap_eq_nil_iff.mpr fun e he => (edits_silent table e he).1
  have hcontent : (reached database before).content.apply
      (.createTable (parts table.ref) (edits table ++ [.applyKeys])) =
        (reached database (before ++ [table])).content := by
    rw [apply_eq_carry rfl, carry_new hfind rfl, h.onTable_edits, hwaits]
    rfl
  have hspelling : (reached database before).content.spelling (parts table.ref) = none := by
    rw [Content.spelling]
    change (findTable before (parts table.ref)).bind _ = none
    rw [hfind]
    rfl
  have hsink : (reached database before).sink.apply (reached database before).content.spelling
      (.createTable (parts table.ref) (edits table ++ [.applyKeys])) = {} := by
    rw [WarningSink.apply, hspelling]
    exact foldl_silent (fun e he => (edits_silent table e he).2) _
  rw [Progress.apply, hcontent, hsink]
  rfl

/-- A line break in front of a statement makes no difference. -/
theorem read_parseScript_newline [Dangling] (progress : Progress) (text : Text) :
    (parseScript progress).read ('\n' :: text) = (parseScript progress).read text := by
  rw [parseScript, read_loop scriptStep_consumes, read_loop scriptStep_consumes, read_scriptStep,
    read_scriptStep, read_skipBlanks_space rfl]

theorem read_parseScript_end [Dangling] (progress : Progress) :
    (parseScript progress).read [] = some (progress, []) := by
  rw [parseScript, read_loop scriptStep_consumes, read_scriptStep, settled_nil.read_skipBlanks]
  rfl

/-- A statement that is read to the line break behind it. -/
theorem read_parseScript_next [Dangling] {progress : Progress} {command : Command} {text rest : Text}
    (hsettled : Settled text) (hne : text ≠ [])
    (h : (readStatement progress.content.spelling).read text = some (command, '\n' :: rest)) :
    (parseScript progress).read text = (parseScript (progress.apply command)).read rest := by
  rw [← read_parseScript_newline (progress.apply command), parseScript,
    read_loop scriptStep_consumes, read_scriptStep,
    hsettled.read_skipBlanks, Option.bind_some, if_neg hne, h]
  rfl

theorem settled_tableText (table : DdlTable) (rest : Text) : Settled (tableText table ++ rest) :=
  settled_of_head (c := 'c') rfl ⟨by decide, by decide⟩ (by decide) _

theorem read_tables [Dangling] {tables : List DdlTable} (h : ∀ table ∈ tables, WritableTable table)
    (hapart : Apart (before ++ tables)) :
    (parseScript (reached database before)).read (tables.flatMap tableText) =
      some (reached database (before ++ tables), []) := by
  induction tables generalizing before with
  | nil =>
    rw [List.append_nil]
    exact read_parseScript_end _
  | cons table tables ih =>
    obtain ⟨htable, hmore⟩ := List.forall_mem_cons.mp h
    have hnew : ∀ t ∈ before, names (parts table.ref) t.ref = false := fun t ht =>
      (List.pairwise_append.mp hapart).2.2 t ht table List.mem_cons_self
    rw [List.append_cons] at hapart ⊢
    rw [List.flatMap_cons, read_parseScript_next (settled_tableText _ _) (List.cons_ne_nil _ _)
      (htable.read_tableText _), htable.apply_reached hnew, ih hmore hapart]

theorem read_databaseText [Dangling] (rest : Text) : (parseScript {}).read (databaseText database ++ rest) =
    (parseScript (reached database [])).read rest := by
  rw [databaseText]
  split_ifs with hnone
  · rw [hnone]
    rfl
  · have htext : "use ".toList ++ (delimited .double database ++ ";\n".toList) ++ rest =
        "use".toList ++ (' ' :: (delimited .double database ++ ';' :: '\n' :: rest)) := by
      simp only [List.append_assoc]
      rfl
    have hends : EndsWord (' ' :: (delimited .double database ++ ';' :: '\n' :: rest)) := rfl
    have hquoted := settled_delimited database (';' :: '\n' :: rest)
    have hword : (eatKeyword "database".toList).read
      (' ' :: (delimited .double database ++ ';' :: '\n' :: rest)) =
        some (false, delimited .double database ++ ';' :: '\n' :: rest) := by
      rw [(skipsFirst_eatKeyword _).read_space hquoted, hquoted.read_eatKeyword ⟨rfl, rfl⟩]
      rfl
    have hname : identifier.read (delimited .double database ++ ';' :: '\n' :: rest) =
        some (database, ';' :: '\n' :: rest) :=
      read_identifier_quoted database (show (some ';' : Option Char) ≠ some '"' by decide)
    have hend : EndsStatement (';' :: '\n' :: rest) := .inr ⟨_, rfl⟩
    have hstatement : (readStatement (Progress.content {}).spelling).read
        ("use".toList ++ (' ' :: (delimited .double database ++ ';' :: '\n' :: rest))) =
          some (.use database, '\n' :: rest) := by
      have hsemi : ¬ ("use".toList ++ (' ' :: (delimited .double database ++ ';' :: '\n' :: rest))).head? =
          some ';' := show ¬ (some 'u' : Option Char) = some ';' by decide
      have hcreate : ¬ foldLower "use".toList = foldLower "create".toList := by decide
      have halter : ¬ foldLower "use".toList = foldLower "alter".toList := by decide
      rw [(word_use.settled hends).read_readStatement, wordOf_append word_use hends, if_neg hsemi,
        if_neg hcreate, if_neg halter, if_pos rfl, List.drop_left, readUse, read_bind, hword,
        Option.bind_some, read_bind, hname, Option.bind_some, read_bind, read_statementEnd hend]
      rfl
    rw [htext, read_parseScript_next (word_use.settled hends) (List.cons_ne_nil _ _) hstatement]
    rfl

end Statements

theorem flush_nothing : WarningSink.flush {} = [] := by
  have hnone : ([] : List Text).dedup = [] := rfl
  simp [WarningSink.flush, hnone]

theorem Writable.read_scriptText [Dangling] {out : DdlSnapshot} (h : Writable out) :
    (parseScript {}).read (scriptText out) = some (reached out.database out.tables, []) := by
  rw [scriptText, read_databaseText, @read_tables _ [] _ _ h.tables h.apart]
  rfl

/-- A script that leaves no key waiting and nothing to report. -/
theorem parseDdl_of_reached [Dangling] {script database : Text} {tables : List DdlTable}
    (h : (parseScript {}).read script = some (reached database tables, [])) :
    parseDdl script = .ok (⟨database, tables⟩, []) := by
  have hresult := parseDdl_of_read h
  have hreport : reportPendingKeys ⟨database, tables⟩ [] {} = {} := rfl
  rw [reached, hreport, flush_nothing] at hresult
  exact hresult

/-- What a schema is written as is read as the schema, with no warning. -/
theorem written_schema_reads_back [Dangling] (out : DdlSnapshot) (h : Writable out) :
    parseDdl (scriptText out) = .ok (out, []) :=
  parseDdl_of_reached h.read_scriptText

/-- Two tables of a schema, the second with a key of the first. -/
def orders : DdlSnapshot where
  database := "shop".toList
  tables :=
    [⟨⟨[], "app".toList, "user".toList⟩,
      [⟨⟨"id".toList, sqlTypeOf "BIGINT".toList, false⟩, "BIGINT".toList, 0, 0, none⟩,
        ⟨⟨"say \"hi\"".toList, sqlTypeOf "VARCHAR".toList, true⟩, "VARCHAR".toList, 40, 0,
          some "7".toList⟩],
      ["id".toList], [], [⟨"by name".toList, ["say \"hi\"".toList], true⟩]⟩,
    ⟨⟨[], [], "order".toList⟩,
      [⟨⟨"user".toList, sqlTypeOf "BIGINT".toList, true⟩, "BIGINT".toList, 0, 0, none⟩,
        ⟨⟨"sum".toList, sqlTypeOf "DECIMAL".toList, false⟩, "DECIMAL".toList, 10, 2, none⟩],
      [], [⟨"user".toList, "id".toList, "user".toList⟩], []⟩]

section Small
attribute [local instance] Dangling.small

theorem orders_reads_back : parseDdl (scriptText orders) = .ok (orders, []) := by
  have hcolumns : ∀ table ∈ orders.tables, ∀ row ∈ table.columns, WritableColumn row := by
    have hall : ∀ table ∈ orders.tables, ∀ row ∈ table.columns,
        (0 ≤ row.size ∧ row.size ≤ int32Max) ∧ (-32768 ≤ row.decimals ∧ row.decimals ≤ 32767) ∧
          foldUpper row.typeName = row.typeName ∧ row.shape.type = sqlTypeOf row.typeName ∧
          ∀ text ∈ row.defaultValue, text = "7".toList := by decide
    intro table htable row hrow
    obtain ⟨hsize, hdecimals, hfolded, htype, hdefault⟩ := hall table htable row hrow
    refine ⟨⟨hsize, hdecimals⟩, hfolded, htype, fun text htext => ?_⟩
    rw [hdefault text htext]
    exact value_digits (List.cons_ne_nil _ _) (List.forall_mem_singleton.mpr rfl)
  refine written_schema_reads_back orders ⟨fun table htable => ⟨hcolumns table htable, ?_, ?_, ?_⟩,
    by decide⟩
  · revert table
    decide
  · revert table
    decide
  · revert table
    decide

end Small

end Uniorm.Ddl
