import Uniorm.Ddl.Reader

/-! # Reading a script

A statement is read as a command, and the command is carried out on what the
script has said so far. Reading looks at the tables of the script in one place
only: an ALTER TABLE of a table that is not there is skipped.
-/
namespace Uniorm.Ddl

open Foundation Foundation.Scan Sql Builder Schema

variable [Dangling]

structure DdlTable where
  ref : TableRef
  columns : List ColumnRow := []
  primaryKey : List Text := []
  foreignKeys : List ForeignKeyRow := []
  indexes : List IndexRow := []
  deriving DecidableEq, Repr

structure DdlSnapshot where
  database : Text := []
  tables : List DdlTable := []
  deriving DecidableEq, Repr

/-- A foreign key that names no referenced columns. -/
structure PendingKey where
  owner : ℕ
  target : List Text
  locals : List Text
  deriving DecidableEq, Repr

/-- A name in front of which nothing or the table's schema or catalog stands. -/
def names (parts : List Text) (ref : TableRef) : Bool :=
  foldLower ref.name == foldLower (lastPart parts) &&
    (parts.length ≤ 1 || (ref.schema == [] && ref.catalog == []) ||
      foldLower ref.schema == foldLower (lastPart parts.dropLast) ||
      foldLower ref.catalog == foldLower (lastPart parts.dropLast))

/-- The first table a name is the name of. -/
def findTable (tables : List DdlTable) (parts : List Text) : Option ℕ :=
  tables.findIdx? fun table => names parts table.ref

def freshTable : List Text → DdlTable
  | [schema, name] => ⟨⟨[], schema, name⟩, [], [], [], []⟩
  | [catalog, schema, name] => ⟨⟨catalog, schema, name⟩, [], [], [], []⟩
  | parts => ⟨⟨[], [], parts.headD []⟩, [], [], [], []⟩

def markKey (table : DdlTable) (column : Text) : DdlTable :=
  if table.primaryKey.contains column then table
  else { table with primaryKey := table.primaryKey ++ [column] }

/-- A column of the primary key is not nullable. -/
def applyKeys (table : DdlTable) : DdlTable :=
  { table with
    columns := table.columns.map fun row =>
      if table.primaryKey.any fun column => foldLower row.shape.name == foldLower column then
        { row with shape.nullable := false }
      else row }

/-- Statements of one kind are counted and reported once. -/
structure WarningSink where
  notes : List Text := []
  counts : List Text := []
  deriving DecidableEq, Repr

def WarningSink.note (sink : WarningSink) (message : Text) : WarningSink :=
  { sink with notes := sink.notes ++ [message] }

def WarningSink.ignore (sink : WarningSink) (what : Text) : WarningSink :=
  { sink with counts := sink.counts ++ [what] }

/-- The order of the keys of a map. -/
def notAfter (a b : Text) : Bool := !List.lex b a fun c d => decide (c < d)

def WarningSink.flush (sink : WarningSink) : List Text :=
  sink.notes ++ (sink.counts.dedup.mergeSort notAfter).map fun what =>
    let count := sink.counts.count what
    if count = 1 then "ignored ".toList ++ what
    else "ignored ".toList ++ numeral count ++ " x ".toList ++ what

/-- What a statement asks for. -/
inductive Command where
  | nothing
  | createTable (parts : List Text) (edits : List Edit)
  | createIndex (name : Text) (parts columns : List Text) (unique : Bool)
  | alter (parts : List Text) (edits : List Edit)
  | alterMissing (parts : List Text)
  | use (database : Text)
  | ignored (what : Text)
  deriving DecidableEq, Repr

def ifNotExists : List Text := ["if", "not", "exists"].map String.toList

def readCreateTable : Reading Command := do
  eatKeywords ifNotExists
  let parts ← tableName
  let edits ← readTableItems (freshTable parts).ref.name
  pure (.createTable parts edits)

def readCreateIndex (unique : Bool) : Reading Command := do
  eatKeywords (ifNotExists ++ ["concurrently".toList])
  let name ← identifier
  let on ← eatKeyword "on".toList
  if !on then
    fail ("expected ON in the definition of index '".toList ++ name ++ ['\''])
  else
    let parts ← tableName
    let method ← eatKeyword "using".toList
    if method then Clause.skipName
    let columns ← indexColumns
    statementEnd
    pure (.createIndex name parts columns unique)

def creationWords : List Text :=
  ["or", "replace", "temp", "temporary", "global", "local", "unlogged"].map String.toList

def readCreate : Reading Command := do
  eatKeywords creationWords
  let table ← eatKeyword "table".toList
  if table then readCreateTable
  else
  let unique ← eatKeyword "unique".toList
  let index ← eatKeyword "index".toList
  if index then readCreateIndex unique
  else
  let place ← eatOneOf (["database", "schema"].map String.toList)
  if place then
    eatKeywords ifNotExists
    let _ ← qualified
    statementEnd
    pure .nothing
  else
    let what ← here
    statementEnd
    pure (.ignored ("CREATE ".toList ++ foldUpper what))

/-- One action that adds something. -/
def readAddition (table : Text) : Reading (List Edit) := do
  let column ← eatKeyword "column".toList
  if column then readAddedColumns
  else
  let constraint ← anyOf [constraintLead, peekKeyword "constraint".toList]
  if constraint then
    let named ← eatKeyword "constraint".toList
    let lead ← if named then constraintLead else pure true
    if !lead then Clause.skipName
    readConstraint table
  else readAddedColumns

def readAdditions (table : Text) : Reading (List Edit) :=
  loop (fun edits => do
    let add ← eatKeyword "add".toList
    if add then
      let item ← readAddition table
      let more ← eat ','
      pure (if more then .inl (edits ++ item) else .inr (edits ++ item))
    else pure (.inr edits)) []

def readOtherActions (parts : List Text) : Reading (List Edit) :=
  loop (fun edits => do
    let atEnd ← atItemEnd
    if atEnd then pure (.inr edits)
    else
      let action ← here
      skipItem
      let more ← eat ','
      let edits := edits ++ [.ignore ("ALTER TABLE ".toList ++ lastPart parts ++ ' ' :: action ++
        " action".toList)]
      pure (if more then .inl edits else .inr edits)) []

/-- `tables` says whether the script has created a table of a name, and how it spelled it. -/
def readAlter (tables : List Text → Option Text) : Reading Command := do
  let table ← eatKeyword "table".toList
  if !table then
    let what ← here
    statementEnd
    pure (.ignored ("ALTER ".toList ++ what))
  else
  eatKeywords (["if", "only", "exists"].map String.toList)
  let parts ← tableName
  match tables parts with
  | none =>
    statementEnd
    pure (.alterMissing parts)
  | some table =>
    let added ← readAdditions table
    let others ← readOtherActions parts
    statementEnd
    pure (.alter parts (added ++ others ++ [.applyKeys]))

/-- Statements whose own subject is data, a session setting or an administration task. -/
def quietWords : List Text :=
  ["insert", "replace", "update", "delete", "merge", "set", "begin", "start", "commit", "rollback",
    "truncate", "drop", "lock", "unlock", "grant", "revoke", "flush", "analyze", "analyse",
    "optimize", "repair", "show", "describe", "explain", "call", "do", "pragma", "reset", "kill",
    "handler", "savepoint", "prepare", "execute", "deallocate", "table", "values", "select", "with",
    "go", "declare", "print", "sleep", "refresh", "vacuum", "cluster", "reindex", "listen",
    "notify", "unlisten", "checkpoint"].map String.toList

def carriesNoSchema (word : Text) : Bool := quietWords.contains word

def readUse : Reading Command := do
  let _ ← eatKeyword "database".toList
  let database ← identifier
  statementEnd
  pure (.use database)

def readOther : Reading Command := do
  let found ← here
  let word := foldLower found
  statementEnd
  pure (if carriesNoSchema word then .nothing
    else .ignored ("statement '".toList ++ word ++ ['\'']))

/-- One round of `parse_script`. -/
def readStatement (tables : List Text → Option Text) : Reading Command := do
  let empty ← eat ';'
  if empty then pure .nothing
  else
  let create ← eatKeyword "create".toList
  if create then readCreate
  else
  let alter ← eatKeyword "alter".toList
  if alter then readAlter tables
  else
  let use ← eatKeyword "use".toList
  if use then readUse else readOther

/-- What the script has said so far of the schema. -/
structure Content where
  out : DdlSnapshot := {}
  pending : List PendingKey := []
  deriving DecidableEq, Repr

namespace Content

/-- The table a name is the name of, as the script spelled it. -/
def spelling (content : Content) (parts : List Text) : Option Text :=
  (findTable content.out.tables parts).bind fun slot =>
    (content.out.tables[slot]?).map fun table => table.ref.name

def modifyTable (content : Content) (slot : ℕ) (f : DdlTable → DdlTable) : Content :=
  { content with out.tables := content.out.tables.modify slot f }

def edit (slot : ℕ) (content : Content) : Edit → Content
  | .column row => content.modifyTable slot fun table =>
      { table with columns := table.columns ++ [row] }
  | .key column => content.modifyTable slot fun table => markKey table column
  | .index row => content.modifyTable slot fun table =>
      { table with indexes := table.indexes ++ [row] }
  | .foreignKey row => content.modifyTable slot fun table =>
      { table with foreignKeys := table.foreignKeys ++ [row] }
  | .pending target locals =>
      { content with pending := content.pending ++ [⟨slot, target, locals⟩] }
  | .applyKeys => content.modifyTable slot Ddl.applyKeys
  | .note _ => content
  | .ignore _ => content

def edits (content : Content) (slot : ℕ) (items : List Edit) : Content :=
  items.foldl (edit slot) content

def apply (content : Content) : Command → Content
  | .createTable parts items =>
    match findTable content.out.tables parts with
    | none =>
      { content with out.tables := content.out.tables ++ [freshTable parts] }.edits
        content.out.tables.length items
    | some slot => (content.modifyTable slot fun _ => freshTable parts).edits slot items
  | .createIndex name parts columns unique =>
    match findTable content.out.tables parts with
    | none => content
    | some slot => content.edit slot (.index ⟨indexName name columns "index".toList, columns, unique⟩)
  | .alter parts items =>
    match findTable content.out.tables parts with
    | none => content
    | some slot => content.edits slot items
  | .use database => { content with out.database := database }
  | .nothing => content
  | .alterMissing _ => content
  | .ignored _ => content

end Content

namespace WarningSink

def edit (sink : WarningSink) : Edit → WarningSink
  | .note message => sink.note message
  | .ignore what => sink.ignore what
  | _ => sink

def apply (sink : WarningSink) (tables : List Text → Option Text) : Command → WarningSink
  | .createTable parts items =>
    let sink := if (tables parts).isSome then
      sink.note ("table '".toList ++ lastPart parts ++
        "' is created twice: the last definition is the one read".toList)
    else sink
    items.foldl edit sink
  | .createIndex name parts _ _ =>
    if (tables parts).isSome then sink
    else sink.note ("index '".toList ++ name ++ "' is on table '".toList ++ lastPart parts ++
      "', which this script does not create".toList)
  | .alter _ items => items.foldl edit sink
  | .alterMissing parts => sink.note ("ALTER TABLE names '".toList ++ lastPart parts ++
      "', which this script does not create".toList)
  | .ignored what => sink.ignore what
  | .nothing => sink
  | .use _ => sink

end WarningSink

/-- What is known while the script is read. -/
structure Progress where
  content : Content := {}
  sink : WarningSink := {}
  deriving DecidableEq, Repr

def Progress.apply (progress : Progress) (command : Command) : Progress :=
  ⟨progress.content.apply command, progress.sink.apply progress.content.spelling command⟩

def scriptStep (progress : Progress) : Reading (Progress ⊕ Progress) := do
  let done ← exhausted
  if done then pure (.inr progress)
  else
    let command ← readStatement progress.content.spelling
    pure (.inl (progress.apply command))

def parseScript (progress : Progress) : Reading Progress := loop scriptStep progress

def PendingKey.targetIn (key : PendingKey) (out : DdlSnapshot) : Option DdlTable :=
  ((findTable out.tables key.target).bind fun slot => out.tables[slot]?).filter fun table =>
    table.primaryKey.length == key.locals.length

def PendingKey.rows (key : PendingKey) (target : DdlTable) : List ForeignKeyRow :=
  (target.primaryKey.zip key.locals).map fun pair => ⟨lastPart key.target, pair.1, pair.2⟩

def resolvePendingKey (out : DdlSnapshot) (key : PendingKey) : DdlSnapshot :=
  match key.targetIn out with
  | none => out
  | some target =>
    { out with
      tables := out.tables.modify key.owner fun table =>
        { table with foreignKeys := table.foreignKeys ++ key.rows target } }

def resolvePendingKeys (out : DdlSnapshot) (pending : List PendingKey) : DdlSnapshot :=
  pending.foldl resolvePendingKey out

def reportPendingKeys (out : DdlSnapshot) (pending : List PendingKey) (sink : WarningSink) :
    WarningSink :=
  pending.foldl (fun sink key =>
    if (key.targetIn out).isSome then sink
    else sink.note ("the FOREIGN KEY on '".toList ++
      ((out.tables[key.owner]?).map fun table => table.ref.name).getD [] ++ "' references '".toList ++
      lastPart key.target ++ "', whose columns this script does not name".toList)) sink

/-- The snapshot of a script and its warnings, or the error it is refused with. -/
def parseDdl (script : Text) : Except (Failure Text) (DdlSnapshot × List Text) :=
  ((parseScript {}).run ⟨script, 1⟩).map fun r =>
    let progress := r.1
    (resolvePendingKeys progress.content.out progress.content.pending,
      (reportPendingKeys progress.content.out progress.content.pending progress.sink).flush)

end Uniorm.Ddl
