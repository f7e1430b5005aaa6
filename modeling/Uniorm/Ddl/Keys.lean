import Uniorm.Ddl.Effect

/-! # The keys of a table

A statement that says something of a table applies the keys of the table to its
columns last. So the tables of a script are what they would be if nothing had
been applied and the keys were applied once, at the end; and no name is in the
key of a table twice in one spelling.
-/
namespace Uniorm.Ddl

open Foundation Foundation.Scan Sql Builder Schema

def InKey (keys : List Text) (row : ColumnRow) : Prop :=
  ∃ name ∈ keys, foldLower row.shape.name = foldLower name

def keyedRow (keys : List Text) (row : ColumnRow) : ColumnRow :=
  if keys.any fun column => foldLower row.shape.name == foldLower column then
    { row with shape.nullable := false }
  else row

theorem applyKeys_columns (table : DdlTable) :
    (applyKeys table).columns = table.columns.map (keyedRow table.primaryKey) := rfl

theorem any_iff_inKey (keys : List Text) (row : ColumnRow) :
    (keys.any fun column => foldLower row.shape.name == foldLower column) = true ↔ InKey keys row := by
  simp only [List.any_eq_true, beq_iff_eq, InKey]

theorem keyedRow_nullable (keys : List Text) (row : ColumnRow) :
    (keyedRow keys row).shape.nullable = true ↔ row.shape.nullable = true ∧ ¬ InKey keys row := by
  rw [keyedRow, ← any_iff_inKey]
  split_ifs with h <;> simp [h]

theorem keyedRow_name (keys : List Text) (row : ColumnRow) :
    (keyedRow keys row).shape.name = row.shape.name := by
  rw [keyedRow]
  split_ifs <;> rfl

/-- Keys that are applied again with others leave no trace of the first time. -/
theorem keyedRow_keyedRow {keys keys' : List Text} (hsub : keys ⊆ keys') (row : ColumnRow) :
    keyedRow keys' (keyedRow keys row) = keyedRow keys' row := by
  by_cases h : InKey keys row
  · have h' : InKey keys' row := by
      obtain ⟨name, hname, hfold⟩ := h
      exact ⟨name, hsub hname, hfold⟩
    have hany := (any_iff_inKey keys row).mpr h
    have hany' := (any_iff_inKey keys' row).mpr h'
    have hinner : keyedRow keys row = { row with shape.nullable := false } := if_pos hany
    have hsame : (keys'.any fun column =>
        foldLower ({ row with shape.nullable := false } : ColumnRow).shape.name == foldLower column) =
          true := hany'
    rw [hinner, keyedRow, keyedRow, if_pos hsame, if_pos hany']
  · have hinner : keyedRow keys row = row := if_neg fun hany => h ((any_iff_inKey keys row).mp hany)
    rw [hinner]

theorem applyKeys_idem (table : DdlTable) : applyKeys (applyKeys table) = applyKeys table := by
  have hcolumns : (table.columns.map (keyedRow table.primaryKey)).map (keyedRow table.primaryKey) =
      table.columns.map (keyedRow table.primaryKey) := by
    rw [List.map_map]
    exact List.map_congr_left fun row _ => keyedRow_keyedRow (List.Subset.refl _) row
  exact congrArg (fun columns => { table with columns }) hcolumns

structure SameKeyed (table table' : DdlTable) : Prop where
  ref : table.ref = table'.ref
  primaryKey : table.primaryKey = table'.primaryKey
  foreignKeys : table.foreignKeys = table'.foreignKeys
  indexes : table.indexes = table'.indexes
  columns : table.columns.map (keyedRow table.primaryKey) = table'.columns.map (keyedRow table.primaryKey)

theorem sameKeyed_iff {table table' : DdlTable} :
    SameKeyed table table' ↔ applyKeys table = applyKeys table' := by
  constructor
  · intro h
    obtain ⟨ref, columns, keys, foreignKeys, indexes⟩ := table
    obtain ⟨ref', columns', keys', foreignKeys', indexes'⟩ := table'
    obtain ⟨href, hkeys, hforeign, hindexes, hcolumns⟩ := h
    cases href
    cases hkeys
    cases hforeign
    cases hindexes
    exact congrArg (fun columns => DdlTable.mk ref columns keys foreignKeys indexes) hcolumns
  · intro h
    have hkeys : table.primaryKey = table'.primaryKey := (congrArg DdlTable.primaryKey h :)
    have hcolumns : table.columns.map (keyedRow table.primaryKey) =
        table'.columns.map (keyedRow table'.primaryKey) := congrArg DdlTable.columns h
    rw [← hkeys] at hcolumns
    exact ⟨(congrArg DdlTable.ref h :), hkeys, (congrArg DdlTable.foreignKeys h :),
      (congrArg DdlTable.indexes h :), hcolumns⟩

theorem sameKeyed_applyKeys (table : DdlTable) : SameKeyed (applyKeys table) table :=
  sameKeyed_iff.mpr (applyKeys_idem table)

theorem SameKeyed.onTable {table table' : DdlTable} (h : SameKeyed table table') (e : Edit) :
    SameKeyed (e.onTable table) (e.onTable table') := by
  cases e with
  | column row =>
    refine ⟨h.ref, h.primaryKey, h.foreignKeys, h.indexes, ?_⟩
    change (table.columns ++ [row]).map (keyedRow table.primaryKey) =
      (table'.columns ++ [row]).map (keyedRow table.primaryKey)
    rw [List.map_append, List.map_append, h.columns]
  | key name =>
    change SameKeyed (markKey table name) (markKey table' name)
    rw [markKey, markKey, ← h.primaryKey]
    split_ifs
    · exact h
    · refine ⟨h.ref, rfl, h.foreignKeys, h.indexes, ?_⟩
      have hmore : ∀ columns : List ColumnRow, columns.map (keyedRow (table.primaryKey ++ [name])) =
          (columns.map (keyedRow table.primaryKey)).map (keyedRow (table.primaryKey ++ [name])) := by
        intro columns
        rw [List.map_map]
        exact List.map_congr_left fun row _ =>
          (keyedRow_keyedRow (List.subset_append_left _ _) row).symm
      change table.columns.map (keyedRow (table.primaryKey ++ [name])) =
        table'.columns.map (keyedRow (table.primaryKey ++ [name]))
      rw [hmore, h.columns, ← hmore]
  | index row =>
    exact ⟨h.ref, h.primaryKey, h.foreignKeys, congrArg (· ++ [row]) h.indexes, h.columns⟩
  | foreignKey row =>
    exact ⟨h.ref, h.primaryKey, congrArg (· ++ [row]) h.foreignKeys, h.indexes, h.columns⟩
  | applyKeys =>
    have heq : applyKeys table = applyKeys table' := sameKeyed_iff.mp h
    change SameKeyed (applyKeys table) (applyKeys table')
    rw [heq]
    exact sameKeyed_iff.mpr rfl
  | _ => exact h

def withoutKeys (items : List Edit) : List Edit := items.filter (· ≠ .applyKeys)

theorem sameKeyed_withoutKeys (items : List Edit) {table table' : DdlTable} (h : SameKeyed table table') :
    SameKeyed (onTable items table) (onTable (withoutKeys items) table') := by
  induction items generalizing table table' with
  | nil => exact h
  | cons e items ih =>
    by_cases he : e = .applyKeys
    · subst he
      have hsame : SameKeyed (applyKeys table) table' :=
        sameKeyed_iff.mpr ((applyKeys_idem table).trans (sameKeyed_iff.mp h))
      exact ih hsame
    · have hkeep : withoutKeys (e :: items) = e :: withoutKeys items :=
        List.filter_cons_of_pos (decide_eq_true he)
      rw [hkeep]
      exact ih (h.onTable e)

theorem waits_withoutKeys (items : List Edit) :
    (withoutKeys items).flatMap Edit.waits = items.flatMap Edit.waits := by
  induction items with
  | nil => rfl
  | cons e items ih =>
    by_cases he : e = .applyKeys
    · subst he
      exact ih
    · have hkeep : withoutKeys (e :: items) = e :: withoutKeys items :=
        List.filter_cons_of_pos (decide_eq_true he)
      rw [hkeep, List.flatMap_cons, List.flatMap_cons, ih]

def EndsWithKeys (items : List Edit) : Prop := ∃ edits, items = edits ++ [.applyKeys]

theorem onTable_endsWithKeys {items : List Edit} (h : EndsWithKeys items) {table table' : DdlTable}
    (hsame : SameKeyed table table') :
    onTable items table = applyKeys (onTable (withoutKeys items) table') := by
  obtain ⟨edits, rfl⟩ := h
  have hdrop : withoutKeys (edits ++ [.applyKeys]) = withoutKeys edits := by
    rw [withoutKeys, List.filter_append]
    exact List.append_nil _
  rw [onTable_append, hdrop]
  exact sameKeyed_iff.mp (sameKeyed_withoutKeys edits hsame)

namespace Command

def withoutKeys : Command → Command
  | .createTable parts items => .createTable parts (Ddl.withoutKeys items)
  | .alter parts items => .alter parts (Ddl.withoutKeys items)
  | command => command

def AppliesKeys : Command → Prop
  | .createTable _ items => EndsWithKeys items
  | .alter _ items => EndsWithKeys items
  | _ => True

end Command

section Read
variable {α β : Type} {P : β → Prop}

def Gives (P : β → Prop) (x : Reading β) : Prop := ∀ text r, x.read text = some r → P r.1

theorem gives_bind {x : Reading α} {f : α → Reading β} (h : ∀ a, Gives P (f a)) : Gives P (x >>= f) := by
  intro text r hread
  rw [read_bind] at hread
  obtain ⟨q, -, hread⟩ := Option.bind_eq_some_iff.mp hread
  exact h q.1 q.2 r hread

theorem gives_pure {b : β} (h : P b) : Gives P (pure b : Reading β) := by
  intro text r hread
  obtain rfl := Option.some.inj hread
  exact h

theorem gives_ite {p : Prop} [Decidable p] {x y : Reading β} (hx : Gives P x) (hy : Gives P y) :
    Gives P (if p then x else y) := by
  split_ifs
  · exact hx
  · exact hy

theorem gives_fail (message : Text) : Gives P (fail message : Reading β) := by
  intro text r hread
  cases hread

end Read

theorem gives_readTableItems [Dangling] (table : Text) : Gives EndsWithKeys (readTableItems table) := by
  refine gives_bind fun like => gives_ite (gives_fail _) ?_
  exact gives_bind fun _ => gives_bind fun edits => gives_bind fun _ => gives_pure ⟨edits, rfl⟩

theorem gives_readCreateTable [Dangling] : Gives Command.AppliesKeys readCreateTable := by
  refine gives_bind fun _ => gives_bind fun parts => ?_
  intro text r hread
  rw [read_bind] at hread
  obtain ⟨q, hitems, hread⟩ := Option.bind_eq_some_iff.mp hread
  obtain rfl := Option.some.inj hread
  exact gives_readTableItems _ text q hitems

theorem gives_readCreateIndex [Dangling] (unique : Bool) :
    Gives Command.AppliesKeys (readCreateIndex unique) := by
  refine gives_bind fun _ => gives_bind fun name => gives_bind fun on => ?_
  refine gives_ite (gives_fail _) (gives_bind fun parts => gives_bind fun method => ?_)
  have hrest : ∀ u : Unit, Gives Command.AppliesKeys (do
      let columns ← indexColumns
      statementEnd
      pure (.createIndex name parts columns unique)) := fun _ =>
    gives_bind fun columns => gives_bind fun _ => gives_pure trivial
  exact gives_ite (gives_bind hrest) (hrest ())

theorem gives_readCreate [Dangling] : Gives Command.AppliesKeys readCreate := by
  refine gives_bind fun _ => gives_bind fun table => gives_ite gives_readCreateTable ?_
  refine gives_bind fun unique => gives_bind fun index => gives_ite (gives_readCreateIndex unique) ?_
  refine gives_bind fun place => gives_ite ?_ ?_
  · exact gives_bind fun _ => gives_bind fun _ => gives_bind fun _ => gives_pure trivial
  · exact gives_bind fun _ => gives_bind fun _ => gives_pure trivial

theorem gives_readAlter [Dangling] (tables : List Text → Option Text) :
    Gives Command.AppliesKeys (readAlter tables) := by
  refine gives_bind fun table => gives_ite ?_ ?_
  · exact gives_bind fun _ => gives_bind fun _ => gives_pure trivial
  · refine gives_bind fun _ => gives_bind fun parts => ?_
    cases tables parts with
    | none => exact gives_bind fun _ => gives_pure trivial
    | some name =>
      exact gives_bind fun added => gives_bind fun others => gives_bind fun _ => gives_pure ⟨_, rfl⟩

/-- Every statement that says something of a table applies the keys last. -/
theorem gives_readStatement [Dangling] (tables : List Text → Option Text) :
    Gives Command.AppliesKeys (readStatement tables) := by
  refine gives_bind fun empty => gives_ite (gives_pure trivial) ?_
  refine gives_bind fun create => gives_ite gives_readCreate ?_
  refine gives_bind fun alter => gives_ite (gives_readAlter tables) ?_
  refine gives_bind fun use => gives_ite ?_ ?_
  · exact gives_bind fun _ => gives_bind fun _ => gives_bind fun _ => gives_pure trivial
  · refine gives_bind fun found => gives_bind fun _ => gives_pure ?_
    split_ifs <;> trivial

/-- The tables are those of the raw content with the keys applied. -/
structure Content.Keyed (content raw : Content) : Prop where
  tables : content.out.tables = raw.out.tables.map applyKeys
  database : content.out.database = raw.out.database
  pending : content.pending = raw.pending

namespace Content
variable {content raw : Content}

theorem findTable_map (tables : List DdlTable) (parts : List Text) :
    findTable (tables.map applyKeys) parts = findTable tables parts := by
  rw [findTable, List.findIdx?_map]
  rfl

theorem Keyed.change (h : content.Keyed raw) {f g : DdlTable → DdlTable}
    (hfg : ∀ table, f (applyKeys table) = applyKeys (g table)) (slot : ℕ) (waits : List Wait) :
    (content.change slot f waits).Keyed (raw.change slot g waits) where
  tables := by
    refine List.ext_getElem? fun n => ?_
    simp only [Content.change, h.tables, List.getElem?_modify, List.getElem?_map]
    cases raw.out.tables[n]? with
    | none => rfl
    | some table =>
      by_cases hn : slot = n
      · simp [hn, hfg]
      · simp [hn]
  database := h.database
  pending := by simp only [Content.change, h.pending]

/-- What an effect of the command is with the keys left out. -/
theorem Keyed.apply (h : content.Keyed raw) {command : Command} (hkeys : command.AppliesKeys) :
    (content.apply command).Keyed (raw.apply command.withoutKeys) := by
  have hfind : ∀ parts, findTable content.out.tables parts = findTable raw.out.tables parts := by
    intro parts
    rw [h.tables, findTable_map]
  have hlength : content.out.tables.length = raw.out.tables.length := by
    rw [h.tables, List.length_map]
  cases command with
  | createTable parts items =>
    have hmade := onTable_endsWithKeys hkeys (sameKeyed_iff.mpr (rfl : applyKeys (freshTable parts) = _))
    rw [apply_eq_carry rfl, apply_eq_carry rfl, carry, carry, hfind]
    cases findTable raw.out.tables parts with
    | none =>
      refine ⟨?_, h.database, ?_⟩
      · simp only [if_true, h.tables, List.map_append, List.map_cons, List.map_nil, hmade]
      · simp only [if_true, h.pending, hlength, waits_withoutKeys]
    | some slot =>
      have hchange := @Keyed.change _ _ h (fun _ => onTable items (freshTable parts))
        (fun _ => onTable (Ddl.withoutKeys items) (freshTable parts)) (fun _ => hmade) slot
        (items.flatMap Edit.waits)
      rw [← waits_withoutKeys] at hchange
      rw [← waits_withoutKeys]
      exact hchange
  | createIndex name parts columns unique =>
    change (content.apply (.createIndex name parts columns unique)).Keyed
      (raw.apply (.createIndex name parts columns unique))
    rw [apply_eq_carry rfl, apply_eq_carry rfl, carry, carry, hfind]
    have hindex : ∀ table, (Edit.index ⟨indexName name columns "index".toList, columns, unique⟩).onTable
        (applyKeys table) = applyKeys
          ((Edit.index ⟨indexName name columns "index".toList, columns, unique⟩).onTable table) :=
      fun _ => rfl
    cases findTable raw.out.tables parts with
    | none => exact h
    | some slot => exact h.change hindex slot []
  | alter parts items =>
    rw [apply_eq_carry rfl, apply_eq_carry rfl, carry, carry, hfind]
    cases findTable raw.out.tables parts with
    | none => exact h
    | some slot =>
      have hchange := h.change (fun table => onTable_endsWithKeys hkeys (sameKeyed_applyKeys table)) slot
        (items.flatMap Edit.waits)
      rw [← waits_withoutKeys] at hchange
      rw [← waits_withoutKeys]
      exact hchange
  | use database => exact ⟨h.tables, rfl, h.pending⟩
  | _ => exact h

/-- Applying the keys as the script goes is applying them once at its end. -/
theorem Keyed.run [Dangling] {text : Text} {commands : List Command}
    (hread : Commands content text commands)
    (h : content.Keyed raw) :
      (content.run commands).Keyed (raw.run (commands.map Command.withoutKeys)) := by
  induction hread generalizing raw with
  | done => exact h
  | next _ _ hread _ ih => exact ih (h.apply (gives_readStatement _ _ _ hread))

end Content

theorem markKey_nodup {table : DdlTable} (h : table.primaryKey.Nodup) (name : Text) :
    (markKey table name).primaryKey.Nodup := by
  rw [markKey]
  by_cases hmem : table.primaryKey.contains name = true
  · rw [if_pos hmem]
    exact h
  · rw [if_neg hmem]
    have hnot : name ∉ table.primaryKey := fun hin => hmem (List.contains_iff_mem.mpr hin)
    exact List.nodup_append.mpr ⟨h, List.pairwise_singleton _ name, fun a ha b hb hab => by
      rw [List.mem_singleton.mp hb] at hab
      exact hnot (hab ▸ ha)⟩

theorem onTable_nodup (items : List Edit) {table : DdlTable} (h : table.primaryKey.Nodup) :
    (onTable items table).primaryKey.Nodup := by
  induction items generalizing table with
  | nil => exact h
  | cons e items ih =>
    refine ih ?_
    cases e with
    | key name => exact markKey_nodup h name
    | _ => exact h

theorem freshTable_primaryKey (parts : List Text) : (freshTable parts).primaryKey = [] := by
  unfold freshTable
  split <;> rfl

def Content.KeysOnce (content : Content) : Prop := ∀ table ∈ content.out.tables, table.primaryKey.Nodup

theorem Content.KeysOnce.carry {content : Content} (h : content.KeysOnce) {e : Effect}
    (he : ∀ table : DdlTable, table.primaryKey.Nodup → (e.table table).primaryKey.Nodup) :
    (content.carry e).KeysOnce := by
  have hfresh : (freshTable e.parts).primaryKey.Nodup := by
    rw [freshTable_primaryKey]
    exact List.nodup_nil
  rw [Content.carry]
  cases findTable content.out.tables e.parts with
  | none =>
    split_ifs
    · intro table htable
      rcases List.mem_append.mp htable with hold | hnew
      · exact h table hold
      · rw [List.mem_singleton.mp hnew]
        exact he _ hfresh
    · exact h
  | some slot =>
    intro table htable
    obtain ⟨n, hn⟩ := List.mem_iff_getElem?.mp htable
    simp only [Content.change, List.getElem?_modify] at hn
    cases hold : content.out.tables[n]? with
    | none =>
      rw [hold] at hn
      cases hn
    | some old =>
      have honce := h old (List.mem_of_getElem? hold)
      rw [hold] at hn
      by_cases hslot : slot = n
      · obtain rfl : e.table old = table := by simpa [hslot] using hn
        exact he old honce
      · obtain rfl : old = table := by simpa [hslot] using hn
        exact honce

theorem Content.KeysOnce.apply {content : Content} (h : content.KeysOnce) (command : Command) :
    (content.apply command).KeysOnce := by
  cases heffect : command.effect with
  | none =>
    intro table htable
    rw [(apply_tables heffect content).1] at htable
    exact h table htable
  | some e =>
    rw [apply_eq_carry heffect]
    refine h.carry fun table honce => ?_
    cases command with
    | createTable parts items =>
      obtain rfl := Option.some.inj heffect
      refine onTable_nodup items ?_
      rw [freshTable_primaryKey]
      exact List.nodup_nil
    | createIndex name parts columns unique =>
      obtain rfl := Option.some.inj heffect
      exact honce
    | alter parts items =>
      obtain rfl := Option.some.inj heffect
      exact onTable_nodup items honce
    | _ => cases heffect

theorem Content.KeysOnce.run {content : Content} (h : content.KeysOnce) (commands : List Command) :
    (content.run commands).KeysOnce := by
  induction commands generalizing content with
  | nil => exact h
  | cons command commands ih => exact ih (h.apply command)

/-- A table of a script is its raw table with the keys applied once, and no name is in its key twice
in one spelling. -/
structure KeyedTable (raw table : DdlTable) : Prop where
  ref : table.ref = raw.ref
  keys : table.primaryKey = raw.primaryKey
  once : table.primaryKey.Nodup
  columns : table.columns = raw.columns.map (keyedRow table.primaryKey)

theorem keyedTable_of_commands [Dangling] {script : Text} {commands : List Command}
    (h : Commands {} script commands)
    {slot : ℕ} {table : DdlTable}
    (htable : (({} : Content).run commands).finish.tables[slot]? = some table) :
    ∃ raw, (({} : Content).run (commands.map Command.withoutKeys)).out.tables[slot]? = some raw ∧
      KeyedTable raw table := by
  have hkeyed :
      (({} : Content).run commands).Keyed (({} : Content).run (commands.map Command.withoutKeys)) :=
    Content.Keyed.run h ⟨rfl, rfl, rfl⟩
  have hempty : ({} : Content).KeysOnce := fun table htable => absurd htable List.not_mem_nil
  rw [Content.finish, resolvePendingKeys_table] at htable
  obtain ⟨done, hdone, rfl⟩ := Option.map_eq_some_iff.mp htable
  have honce := hempty.run commands done (List.mem_of_getElem? hdone)
  rw [hkeyed.tables, List.getElem?_map] at hdone
  obtain ⟨raw, hraw, rfl⟩ := Option.map_eq_some_iff.mp hdone
  exact ⟨raw, hraw, rfl, rfl, honce, rfl⟩

end Uniorm.Ddl
