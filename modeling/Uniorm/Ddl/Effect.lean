import Uniorm.Ddl.Run
import Uniorm.Foundation.Lists

/-! # What a command does to a table

A command that says something of a table does one thing to the table its name
finds, and may leave keys waiting for that table's foreign keys. At the end of
the script each table gets the rows of the keys that wait for it, in their
order.
-/
namespace Uniorm.Ddl

open Foundation Foundation.Scan Sql Builder Schema

def Edit.onTable : Edit → DdlTable → DdlTable
  | .column row, table => { table with columns := table.columns ++ [row] }
  | .key name, table => markKey table name
  | .index row, table => { table with indexes := table.indexes ++ [row] }
  | .foreignKey row, table => { table with foreignKeys := table.foreignKeys ++ [row] }
  | .applyKeys, table => Ddl.applyKeys table
  | _, table => table

abbrev Wait := List Text × List Text

def Edit.waits : Edit → List Wait
  | .pending target locals => [(target, locals)]
  | _ => []

def onTable (items : List Edit) (table : DdlTable) : DdlTable :=
  items.foldl (fun table e => e.onTable table) table

theorem onTable_append (items items' : List Edit) (table : DdlTable) :
    onTable (items ++ items') table = onTable items' (onTable items table) := List.foldl_append ..

theorem markKey_ref (table : DdlTable) (column : Text) :
    (markKey table column).ref = table.ref := by
  rw [markKey]
  split_ifs <;> rfl

theorem Edit.onTable_ref (e : Edit) (table : DdlTable) : (e.onTable table).ref = table.ref := by
  cases e with
  | key name => exact markKey_ref table name
  | _ => rfl

theorem onTable_ref (items : List Edit) (table : DdlTable) :
    (onTable items table).ref = table.ref := by
  induction items generalizing table with
  | nil => rfl
  | cons e items ih => exact (ih (e.onTable table)).trans (e.onTable_ref table)

def waiting (slot : ℕ) (waits : List Wait) : List PendingKey :=
  waits.map fun wait => ⟨slot, wait.1, wait.2⟩

def Content.change (content : Content) (slot : ℕ) (f : DdlTable → DdlTable) (waits : List Wait) :
    Content :=
  { content with
    out.tables := content.out.tables.modify slot f
    pending := content.pending ++ waiting slot waits }

theorem edit_eq (content : Content) (slot : ℕ) (e : Edit) :
    content.edit slot e = content.change slot e.onTable e.waits := by
  cases e with
  | pending target locals =>
    have hid := modify_of_id (f := (Edit.pending target locals).onTable) (fun _ => rfl)
      content.out.tables slot
    rw [Content.change, hid]
    rfl
  | note message =>
    have hid := modify_of_id (f := (Edit.note message).onTable) (fun _ => rfl)
      content.out.tables slot
    simp only [Content.change, hid, Edit.waits, waiting, List.map_nil, List.append_nil]
    rfl
  | ignore what =>
    have hid := modify_of_id (f := (Edit.ignore what).onTable) (fun _ => rfl)
      content.out.tables slot
    simp only [Content.change, hid, Edit.waits, waiting, List.map_nil, List.append_nil]
    rfl
  | _ =>
    simp only [Content.edit, Content.change, Content.modifyTable, Edit.waits, waiting, List.map_nil,
      List.append_nil]
    rfl

theorem change_change (content : Content) (slot : ℕ) (f g : DdlTable → DdlTable)
    (waits waits' : List Wait) : (content.change slot f waits).change slot g waits' =
      content.change slot (g ∘ f) (waits ++ waits') := by
  simp [Content.change, waiting, List.modify_modify_eq]

theorem edits_eq (content : Content) (slot : ℕ) (items : List Edit) :
    content.edits slot items = content.change slot (onTable items) (items.flatMap Edit.waits) := by
  rw [Content.edits]
  induction items generalizing content with
  | nil =>
    have hid := modify_of_id (f := onTable []) (fun _ => rfl) content.out.tables slot
    rw [Content.change, hid]
    simp [waiting]
  | cons e items ih =>
    rw [List.foldl_cons, ih, edit_eq, change_change, List.flatMap_cons]
    rfl

/-- What a command does to the table its name finds; one that creates makes a table where there is
none. -/
structure Effect where
  parts : List Text
  table : DdlTable → DdlTable
  creates : Bool
  waits : List Wait

def Command.effect : Command → Option Effect
  | .createTable parts items =>
    some ⟨parts, fun _ => onTable items (freshTable parts), true, items.flatMap Edit.waits⟩
  | .createIndex name parts columns unique =>
    some ⟨parts, (Edit.index ⟨indexName name columns "index".toList, columns, unique⟩).onTable,
      false, []⟩
  | .alter parts items => some ⟨parts, onTable items, false, items.flatMap Edit.waits⟩
  | _ => none

def Content.carry (content : Content) (e : Effect) : Content :=
  match findTable content.out.tables e.parts with
  | some slot => content.change slot e.table e.waits
  | none =>
    if e.creates then
      { content with
        out.tables := content.out.tables ++ [e.table (freshTable e.parts)]
        pending := content.pending ++ waiting content.out.tables.length e.waits }
    else content

theorem apply_eq_carry {command : Command} {e : Effect} (h : command.effect = some e)
    (content : Content) : content.apply command = content.carry e := by
  cases command with
  | createTable parts items =>
    obtain rfl := Option.some.inj h
    rw [Content.apply, Content.carry]
    cases findTable content.out.tables parts with
    | none =>
      have hmodify : (content.out.tables ++ [freshTable parts]).modify content.out.tables.length
          (onTable items) = content.out.tables ++ [onTable items (freshTable parts)] := by
        exact modify_length_append _ _ _
      simp only [edits_eq, Content.change, hmodify, if_true]
    | some slot =>
      simp only [edits_eq, Content.modifyTable, Content.change, List.modify_modify_eq]
      rfl
  | createIndex name parts columns unique =>
    obtain rfl := Option.some.inj h
    rw [Content.apply, Content.carry]
    cases findTable content.out.tables parts with
    | none => rfl
    | some slot => exact edit_eq _ _ _
  | alter parts items =>
    obtain rfl := Option.some.inj h
    rw [Content.apply, Content.carry]
    cases findTable content.out.tables parts with
    | none => rfl
    | some slot => exact edits_eq _ _ _
  | _ => cases h

theorem apply_tables {command : Command} (h : command.effect = none) (content : Content) :
    (content.apply command).out.tables = content.out.tables ∧
      (content.apply command).pending = content.pending := by
  cases command with
  | createTable => cases h
  | createIndex => cases h
  | alter => cases h
  | _ => exact ⟨rfl, rfl⟩

def keyRows (out : DdlSnapshot) (key : PendingKey) : List ForeignKeyRow :=
  match key.targetIn out with
  | none => []
  | some target => key.rows target

def rowsFor (out : DdlSnapshot) (slot : ℕ) (pending : List PendingKey) : List ForeignKeyRow :=
  (pending.filter fun key => key.owner == slot).flatMap (keyRows out)

namespace DdlTable

def withRows (table : DdlTable) (rows : List ForeignKeyRow) : DdlTable :=
  { table with foreignKeys := table.foreignKeys ++ rows }

def bare (table : DdlTable) : DdlTable := { table with foreignKeys := [] }

theorem withRows_nil (table : DdlTable) : table.withRows [] = table := by
  rw [withRows, List.append_nil]

theorem withRows_append (table : DdlTable) (rows rows' : List ForeignKeyRow) :
    (table.withRows rows).withRows rows' = table.withRows (rows ++ rows') := by
  rw [withRows, withRows, withRows, List.append_assoc]

end DdlTable

def DdlTable.keyed (table : DdlTable) : DdlTable := { ref := table.ref, primaryKey := table.primaryKey }

theorem findTable_keyed (tables : List DdlTable) (parts : List Text) :
    findTable (tables.map DdlTable.keyed) parts = findTable tables parts := by
  rw [findTable, List.findIdx?_map]
  rfl

theorem keyRows_keyed {out out' : DdlSnapshot}
    (h : out.tables.map DdlTable.keyed = out'.tables.map DdlTable.keyed) (key : PendingKey) :
    keyRows out key = keyRows out' key := by
  have hkeyed : ∀ out : DdlSnapshot, keyRows out key =
      match ((findTable (out.tables.map DdlTable.keyed) key.target).bind fun slot =>
        (out.tables.map DdlTable.keyed)[slot]?).filter fun table =>
          table.primaryKey.length == key.locals.length with
      | none => []
      | some target => key.rows target := fun out => by
    rw [findTable_keyed, keyRows, PendingKey.targetIn]
    cases findTable out.tables key.target with
    | none => rfl
    | some slot =>
      rw [Option.bind_some, Option.bind_some, List.getElem?_map]
      cases out.tables[slot]? with
      | none => rfl
      | some table =>
        rw [Option.map_some, Option.filter_some, Option.filter_some]
        change _ = match (if table.primaryKey.length == key.locals.length then _ else none) with
          | none => []
          | some target => key.rows target
        split_ifs <;> rfl
  rw [hkeyed, hkeyed, h]

/-- What a key comes to does not depend on the foreign keys there are. -/
theorem keyRows_congr {out out' : DdlSnapshot}
    (h : out.tables.map DdlTable.bare = out'.tables.map DdlTable.bare) (key : PendingKey) :
    keyRows out key = keyRows out' key := by
  have hkeyed := congrArg (List.map DdlTable.keyed) h
  rw [List.map_map, List.map_map] at hkeyed
  exact keyRows_keyed hkeyed key

theorem rowsFor_congr {out out' : DdlSnapshot}
    (h : out.tables.map DdlTable.bare = out'.tables.map DdlTable.bare) (slot : ℕ)
    (pending : List PendingKey) : rowsFor out slot pending = rowsFor out' slot pending := by
  rw [rowsFor, rowsFor, funext (keyRows_congr h)]

theorem rowsFor_cons (out : DdlSnapshot) (slot : ℕ) (key : PendingKey) (pending : List PendingKey) :
    rowsFor out slot (key :: pending) =
      (if key.owner = slot then keyRows out key else []) ++ rowsFor out slot pending := by
  by_cases howner : key.owner = slot <;> simp [rowsFor, howner]

theorem rowsFor_append (out : DdlSnapshot) (slot : ℕ) (pending pending' : List PendingKey) :
    rowsFor out slot (pending ++ pending') = rowsFor out slot pending ++ rowsFor out slot pending' := by
  simp [rowsFor]

theorem rowsFor_waiting (out : DdlSnapshot) (slot : ℕ) (waits : List Wait) :
    rowsFor out slot (waiting slot waits) = (waiting slot waits).flatMap (keyRows out) := by
  have hall : ∀ key ∈ waiting slot waits, (key.owner == slot) = true := by
    intro key hkey
    obtain ⟨wait, -, rfl⟩ := List.mem_map.mp hkey
    exact beq_self_eq_true slot
  rw [rowsFor, List.filter_eq_self.mpr hall]

theorem resolvePendingKey_tables (out : DdlSnapshot) (key : PendingKey) :
    (resolvePendingKey out key).tables =
      out.tables.modify key.owner fun table => table.withRows (keyRows out key) := by
  rw [resolvePendingKey, keyRows]
  cases key.targetIn out with
  | none => exact (modify_of_id DdlTable.withRows_nil _ _).symm
  | some target => rfl

theorem map_bare_modify (tables : List DdlTable) (slot : ℕ) (rows : List ForeignKeyRow) :
    (tables.modify slot fun table => table.withRows rows).map DdlTable.bare =
      tables.map DdlTable.bare := by
  induction tables generalizing slot with
  | nil => cases slot <;> rfl
  | cons table tables ih =>
    cases slot with
    | zero => rfl
    | succ slot => exact congrArg (table.bare :: ·) (ih slot)

/-- At the end of the script each table gets the rows of the keys that wait for it. -/
theorem resolvePendingKeys_table (out : DdlSnapshot) (pending : List PendingKey) (slot : ℕ) :
    (resolvePendingKeys out pending).tables[slot]? =
      (out.tables[slot]?).map fun table => table.withRows (rowsFor out slot pending) := by
  rw [resolvePendingKeys]
  induction pending generalizing out with
  | nil =>
    rw [show rowsFor out slot [] = [] from rfl, funext DdlTable.withRows_nil]
    exact Option.map_id'.symm
  | cons key pending ih =>
    have hbare : (resolvePendingKey out key).tables.map DdlTable.bare =
        out.tables.map DdlTable.bare := by
      rw [resolvePendingKey_tables, map_bare_modify]
    rw [List.foldl_cons, ih, rowsFor_congr hbare, resolvePendingKey_tables, List.getElem?_modify,
      rowsFor_cons]
    cases out.tables[slot]? with
    | none => rfl
    | some table =>
      by_cases howner : key.owner = slot
      · simp only [if_pos howner]
        exact congrArg some (table.withRows_append _ _)
      · simp only [if_neg howner]
        rfl

/-- The end of the script changes foreign keys only. -/
theorem resolvePendingKeys_keyed (out : DdlSnapshot) (pending : List PendingKey) :
    (resolvePendingKeys out pending).tables.map DdlTable.keyed = out.tables.map DdlTable.keyed := by
  refine List.ext_getElem? fun slot => ?_
  rw [List.getElem?_map, List.getElem?_map, resolvePendingKeys_table, Option.map_map]
  rfl

end Uniorm.Ddl
