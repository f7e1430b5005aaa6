import Uniorm.Ddl.Scanner
import Uniorm.Schema.Meta
import Uniorm.Sql.Placeholder

/-! # Reading the items of a table

The parser writes into the table it reads as it goes. Here an item is read as
the list of edits it makes, in their order, so that what the text says and what
becomes of the table stand apart.
-/
namespace Uniorm.Ddl

open Foundation Foundation.Scan Sql Builder Schema

variable [Dangling]

def typeTable : List (String × SqlType) :=
  [("BIGINT", .bigint), ("BIGSERIAL", .bigint), ("BINARY", .binary), ("BIT", .binary),
    ("BIT VARYING", .varbinary), ("BLOB", .varbinary), ("BOOL", .boolean), ("BOOLEAN", .boolean),
    ("BPCHAR", .character), ("BYTEA", .varbinary), ("CHAR", .character), ("CHAR VARYING", .varchar),
    ("CHARACTER", .character), ("CHARACTER VARYING", .varchar), ("CLOB", .longvarchar),
    ("DATE", .date), ("DATETIME", .timestamp), ("DEC", .decimal), ("DECIMAL", .decimal),
    ("DOUBLE", .doublePrecision), ("DOUBLE PRECISION", .doublePrecision), ("ENUM", .varchar),
    ("FIXED", .decimal), ("FLOAT", .real), ("FLOAT4", .real), ("FLOAT8", .doublePrecision),
    ("IMAGE", .varbinary), ("INT", .integer), ("INT2", .smallint), ("INT4", .integer),
    ("INT8", .bigint), ("INTEGER", .integer), ("JSON", .longvarchar), ("JSONB", .longvarchar),
    ("LONG VARBINARY", .varbinary), ("LONG VARCHAR", .longvarchar), ("LONG VARCHARACTER", .varchar),
    ("LONGBLOB", .varbinary), ("LONGTEXT", .longvarchar), ("MEDIUMBLOB", .varbinary),
    ("MEDIUMINT", .integer), ("MEDIUMTEXT", .longvarchar), ("NATIONAL CHAR", .wchar),
    ("NATIONAL CHAR VARYING", .wvarchar), ("NATIONAL CHARACTER", .wchar),
    ("NATIONAL CHARACTER VARYING", .wvarchar), ("NCHAR", .wchar), ("NCHAR VARYING", .wvarchar),
    ("NCLOB", .wvarchar), ("NUMERIC", .decimal), ("NVARCHAR", .wvarchar), ("NVARCHAR2", .wvarchar),
    ("REAL", .real), ("SERIAL", .integer), ("SET", .varchar), ("SMALLDATETIME", .timestamp),
    ("SMALLINT", .smallint), ("SMALLSERIAL", .smallint), ("TEXT", .longvarchar), ("TIME", .time),
    ("TIME WITH TIME ZONE", .time), ("TIME WITHOUT TIME ZONE", .time), ("TIMESTAMP", .timestamp),
    ("TIMESTAMP WITH LOCAL TIME ZONE", .timestamp), ("TIMESTAMP WITH TIME ZONE", .timestamp),
    ("TIMESTAMP WITHOUT TIME ZONE", .timestamp), ("TIMESTAMPTZ", .timestamp), ("TIMETZ", .time),
    ("TINYBLOB", .varbinary), ("TINYINT", .smallint), ("TINYTEXT", .longvarchar), ("UUID", .guid),
    ("VARBINARY", .varbinary), ("VARCHAR", .varchar), ("VARCHAR2", .varchar),
    ("VARCHARACTER", .varchar), ("XML", .longvarchar), ("YEAR", .smallint)]

def findType (phrase : Text) : Option SqlType :=
  (typeTable.find? fun entry => entry.1.toList == phrase).map Prod.snd

def knownType (phrase : Text) : Bool := (findType phrase).isSome

def typeContinues (phrase : Text) : Bool :=
  typeTable.any fun entry => (phrase ++ [' ']).isPrefixOf entry.1.toList

def sqlTypeOf (phrase : Text) : SqlType :=
  match findType phrase with
  | some type => type
  | none =>
    if phrase.contains ' ' then (findType (phrase.takeWhile (· != ' '))).getD .other else .other

def int32Max : ℕ := 2147483647

def clampFrom (total : ℕ) : Text → ℕ
  | [] => total
  | ch :: digits =>
    let total := total * 10 + (ch.toNat - '0'.toNat)
    if int32Max < total then int32Max else clampFrom total digits

def clampSize (digits : Text) : ℕ := clampFrom 0 digits

def allDigits (text : Text) : Bool := text ≠ [] && text.all Char.isDigit

/-- What the script's text writes into the table it is about, and what it says besides. -/
inductive Edit where
  | column (row : ColumnRow)
  | key (column : Text)
  | index (row : IndexRow)
  | foreignKey (row : ForeignKeyRow)
  | pending (target locals : List Text)
  | applyKeys
  | note (message : Text)
  | ignore (what : Text)
  deriving DecidableEq, Repr

def indexName (given : Text) (columns : List Text) (fallback : Text) : Text :=
  if given ≠ [] then given else fallback ++ columns.flatMap ('_' :: ·)

def tableName : Reading (List Text) := do
  let parts ← qualified
  if 3 < parts.length then
    fail ('\'' :: parts.headD [] ++ "' is not a table name: three parts at most".toList)
  else pure parts

def lastPart (parts : List Text) : Text := parts.getLastD []

/-- KEY, INDEX and UNIQUE also open a column definition; a key list opens a parenthesis behind at
most this many names. -/
def opensListWithin : ℕ → Reading Bool
  | 0 => pure false
  | terms + 1 => do
    let opens ← peekIs '('
    if opens then pure true
    else
      let named ← eatOptionalName
      if named then opensListWithin terms else pure false

def opensAKeyList (lead : Text) : Reading Bool :=
  ahead (do
    let there ← eatKeyword lead
    if there then opensListWithin 3 else pure false)

def constraintLeads : List Text :=
  ["primary", "foreign", "check", "exclude", "fulltext", "spatial"].map String.toList

def anyOf : List (Reading Bool) → Reading Bool
  | [] => pure false
  | probe :: probes => do
    let there ← probe
    if there then pure true else anyOf probes

def constraintLead : Reading Bool :=
  anyOf (constraintLeads.map peekKeyword ++
    [opensAKeyList "unique".toList, opensAKeyList "key".toList, opensAKeyList "index".toList])

/-- A key that names no columns waits for the primary key of its target. -/
def readReferences (locals : List Text) : Reading (List Edit) := do
  let _ ← eatKeyword "references".toList
  let target ← tableName
  let listed ← peekIs '('
  let columns ← if listed then nameList else pure []
  if columns = [] then
    skipItem
    pure [.pending target locals]
  else if columns.length ≠ locals.length then
    fail ("a FOREIGN KEY of ".toList ++ numeral locals.length ++ " columns references ".toList ++
      numeral columns.length ++ " columns in '".toList ++ lastPart target ++ ['\''])
  else
    skipItem
    pure ((columns.zip locals).map fun pair =>
      .foreignKey ⟨lastPart target, pair.1, pair.2⟩)

def readKeyColumnsThenReferences : Reading (List Edit) := do
  let listed ← peekIs '('
  if listed then
    let names ← nameList
    readReferences names
  else readReferences []

/-- The first two arguments of a type, where they are numbers. -/
def argument (slot : ℕ) (item : Text) (row : ColumnRow) : ColumnRow :=
  if slot = 0 && allDigits item then { row with size := clampSize item }
  else if slot = 1 && allDigits item then { row with decimals := Int.bmod (clampSize item) 65536 }
  else row

def readArguments (row : ColumnRow) : Reading ColumnRow :=
  loop (fun state : ℕ × ColumnRow => do
    let closed ← eat ')'
    if closed then pure (.inr state.2)
    else
      let item ← value
      let row := argument state.1 item state.2
      let more ← eat ','
      if more then pure (.inl (state.1 + 1, row))
      else
        expect ')'
        pure (.inr row)) (0, row)

def readPhrase (phrase : Text) : Reading Text :=
  loop (fun phrase => do
    let word ← peekWord
    let next := phrase ++ ' ' :: foldUpper word
    if word = [] || (!knownType next && !typeContinues next) then pure (.inr phrase)
    else
      takeWord
      pure (.inl next)) phrase

def serialTypes : List Text := ["SERIAL", "BIGSERIAL", "SMALLSERIAL"].map String.toList

def skipSigns : Reading Unit :=
  loop (fun _ => do
    let there ← eatOneOf (["unsigned", "signed", "zerofill"].map String.toList)
    pure (if there then .inl () else .inr ())) ()

/-- The arguments stand behind the whole phrase or in front of the tail of it. -/
def readType (row : ColumnRow) : Reading ColumnRow := do
  let parts ← qualified
  let early ← eat '('
  let row ← if early then readArguments row else pure row
  let phrase ← readPhrase (foldUpper (lastPart parts))
  let late ← if early then pure false else eat '('
  let row ← if late then readArguments row else pure row
  skipSigns
  let array ← peekIs '['
  if array then
    fail ("column '".toList ++ row.shape.name ++ "' has type '".toList ++ phrase ++
      "[]': the v1 binding set carries no arrays".toList)
  else
    pure { row with
      typeName := phrase
      shape.type := sqlTypeOf phrase
      shape.nullable := row.shape.nullable && !serialTypes.contains phrase }

def readGenerated (column : Text) : Reading (List Edit) := do
  let always ← eatKeyword "always".toList
  if !always then eatKeywords (["by", "default"].map String.toList)
  let as ← eatKeyword "as".toList
  let identity ← if as then eatKeyword "identity".toList else pure false
  let expression ← if identity then pure false else peekIs '('
  if expression then skipBalanced
  if as && !identity && !expression then
    fail ("unsupported GENERATED clause on column '".toList ++ column ++ ['\''])
  else
    eatKeywords (["stored", "virtual"].map String.toList)
    pure (if expression then
      [.note ("generated column '".toList ++ column ++
        "' is emitted as a plain column: reading it works, writing it does not".toList)]
    else [])

/-- A clause of a column definition: the word it begins with, and what is read behind the word. -/
structure Clause where
  leads : List String
  read : ColumnRow → Reading (ColumnRow × List Edit)

namespace Clause

def skips (leads : List String) (x : Reading Unit) : Clause :=
  ⟨leads, fun row => do
    x
    pure (row, [])⟩

def checkList : Reading Unit := do
  let listed ← peekIs '('
  if listed then skipBalanced

def skipValue : Reading Unit := do
  let _ ← value

def skipName : Reading Unit := do
  let _ ← identifier

def all : List Clause :=
  [⟨["not"], fun row => do
      let null ← eatKeyword "null".toList
      if null then pure ({ row with shape.nullable := false }, [])
      else
        expectKeyword "enforced".toList
        pure (row, [])⟩,
    ⟨["null"], fun row => pure ({ row with shape.nullable := true }, [])⟩,
    ⟨["default"], fun row => do
      let text ← value
      pure ({ row with defaultValue := some text }, [])⟩,
    ⟨["primary"], fun row => do
      expectKeyword "key".toList
      pure ({ row with shape.nullable := false }, [.key row.shape.name])⟩,
    ⟨["unique"], fun row => do
      eatKeywords (["key", "index"].map String.toList)
      pure (row, [.index ⟨indexName [] [row.shape.name] "unique".toList, [row.shape.name], true⟩])⟩,
    ⟨["references"], fun row => do
      let edits ← readReferences [row.shape.name]
      pure (row, edits)⟩,
    skips ["collate"] (do
      let conditional ← eatKeyword "if".toList
      if conditional then eatKeywords ["exists".toList]
      skipName),
    skips ["character"] (do
      expectKeyword "set".toList
      skipName),
    skips ["charset"] (do
      let _ ← eat '='
      skipName),
    skips ["comment"] skipValue,
    skips ["on"] (do
      expectKeyword "update".toList
      skipValue),
    ⟨["generated", "as"], fun row => do
      let edits ← readGenerated row.shape.name
      pure (row, edits)⟩,
    skips ["constraint"] skipName,
    skips ["check"] checkList,
    skips ["storage", "compression", "srid"] skipValue,
    skips ["initially"] (eatKeywords (["deferred", "immediate"].map String.toList)),
    skips ["auto_increment", "invisible", "visible", "mandatory", "deferrable"] (pure ()),
    skips ["after"] skipName,
    skips ["first"] (pure ())]

def readFirst (row : ColumnRow) : List Clause → Reading (ColumnRow × List Edit)
  | [] => do
    let found ← here
    fail ("unsupported definition of column '".toList ++ row.shape.name ++ "': found '".toList ++
      found ++ ['\''])
  | clause :: clauses => do
    let there ← eatOneOf (clause.leads.map String.toList)
    if there then clause.read row else readFirst row clauses

end Clause

def readColumnDef : Reading (List Edit) := do
  let name ← identifier
  let row ← readType { shape := { name, nullable := true } }
  loop (fun state : ColumnRow × List Edit => do
    let atEnd ← atItemEnd
    if atEnd then pure (.inr (state.2 ++ [.column state.1]))
    else
      let (row, edits) ← Clause.readFirst state.1 Clause.all
      pure (.inl (row, state.2 ++ edits))) (row, [])

def readIndex (fallback : Text) (unique : Bool) : Reading (List Edit) := do
  let listed ← peekIs '('
  let name ← if listed then pure [] else identifier
  let columns ← indexColumns
  skipItem
  pure [.index ⟨indexName name columns fallback, columns, unique⟩]

def nonValue (table : Text) : List Edit :=
  [.ignore ("a non-value constraint on table '".toList ++ table ++ ['\''])]

def readConstraint (table : Text) : Reading (List Edit) := do
  let primary ← eatKeyword "primary".toList
  if primary then
    expectKeyword "key".toList
    let columns ← nameList
    skipItem
    pure (columns.map .key)
  else
  let unique ← eatKeyword "unique".toList
  if unique then
    eatKeywords (["key", "index", "nulls", "not", "distinct"].map String.toList)
    readIndex "unique".toList true
  else
  let key ← eatOneOf (["key", "index"].map String.toList)
  if key then readIndex "index".toList false
  else
  let foreign ← eatKeyword "foreign".toList
  if foreign then
    expectKeyword "key".toList
    readKeyColumnsThenReferences
  else
  let check ← eatKeyword "check".toList
  if check then
    Clause.checkList
    skipItem
    pure (nonValue table)
  else
  let other ← eatOneOf (["fulltext", "spatial", "exclude"].map String.toList)
  if other then
    skipItem
    pure (nonValue table)
  else
    let found ← here
    fail ("unsupported table constraint on '".toList ++ table ++ "': found '".toList ++ found ++
      ['\''])

def readNamedConstraint (table : Text) : Reading (List Edit) := do
  let lead ← constraintLead
  if !lead then Clause.skipName
  readConstraint table

def readTableItem (table : Text) : Reading (List Edit) := do
  let named ← eatKeyword "constraint".toList
  if named then readNamedConstraint table
  else
    let lead ← constraintLead
    if lead then readConstraint table else readColumnDef

def readTableItems (table : Text) : Reading (List Edit) := do
  let like ← eatKeyword "like".toList
  if like then fail "CREATE TABLE ... LIKE copies a table this script does not give".toList
  else
    expect '('
    let edits ← loop (fun edits => do
      let closed ← eat ')'
      if closed then pure (.inr edits)
      else
        let item ← readTableItem table
        let more ← eat ','
        if more then pure (.inl (edits ++ item))
        else
          expect ')'
          pure (.inr (edits ++ item))) []
    -- what follows the closing parenthesis is a table option
    statementEnd
    pure (edits ++ [.applyKeys])

def readAddedColumns : Reading (List Edit) := do
  let grouped ← eat '('
  let first ← readColumnDef
  if grouped then
    let edits ← loop (fun edits => do
      let more ← eat ','
      if more then
        let item ← readColumnDef
        pure (.inl (edits ++ item))
      else pure (.inr edits)) first
    expect ')'
    pure edits
  else pure first

end Uniorm.Ddl
