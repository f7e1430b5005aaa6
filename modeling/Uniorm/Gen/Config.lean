import Uniorm.Gen.Header

/-! # Reading the config

The sections and keys of the text, in the order they stand, and what is made of
them. A section only says where the keys under it go; what it names is compared
with the catalog later, by the entries the keys have left.
-/
namespace Uniorm.Gen

open Foundation Sql Builder Cpp

/-- The text of a `config_error` of `parse_config`. -/
def fail (line : ℕ) (message : Text) : Text := "line ".toList ++ numeral line ++ ": ".toList ++ message

section Entries
variable {α : Type}

/-- `operator[]` of a map: the entry under a key is changed, a new one from its default. -/
def changeEntry (key : Text) (default : α) (change : α → α) : List (Text × α) → List (Text × α)
  | [] => [(key, change default)]
  | (k, a) :: entries =>
    if k = key then (k, change a) :: entries else (k, a) :: changeEntry key default change entries

def findEntry (entries : List (Text × α)) (key : Text) : Option α :=
  (entries.find? fun e => e.1 = key).map Prod.snd

end Entries

/-- `table_config`. -/
structure TableEntry where
  className : Option Text := none
  skip : Bool := false
  columns : List (Text × ColumnOverride) := []

/-- `gen_config`. -/
structure Config where
  typeOverrides : List (Text × Text) := []
  tables : List (Text × TableEntry) := []

def Config.genConfig (cfg : Config) : GenConfig where
  typeOverrides := findEntry cfg.typeOverrides
  tables key := (findEntry cfg.tables key).map fun t =>
    { className := t.className, skip := t.skip, columns := findEntry t.columns }

/-- A line up to the first `#` outside of quotes. -/
def stripComment (inQuotes : Bool) : Text → Text
  | [] => []
  | c :: cs =>
    if c = '"' then c :: stripComment (!inQuotes) cs
    else if c = '#' ∧ !inQuotes then []
    else c :: stripComment inQuotes cs

def trim (s : Text) : Text := trimBy isSpace s

def skipSpaces (s : Text) : Text := s.dropWhile isSpace

def readToken (line : ℕ) (stop : Char) (s : Text) : Except Text (Text × Text) :=
  match s with
  | [] => .error (fail line "unexpected end of line".toList)
  | '"' :: cs =>
    match cs.dropWhile (· != '"') with
    | [] => .error (fail line "unterminated string".toList)
    | _ :: rest => .ok (cs.takeWhile (· != '"'), rest)
  | cs =>
    let inToken := fun c => c != stop && c != '=' && !isSpace c
    if cs.takeWhile inToken = [] then .error (fail line "expected a token".toList)
    else .ok (cs.takeWhile inToken, cs.dropWhile inToken)

/-- The loop of `parse_section`. Every round but the last takes a dot off, so the rounds are at most
as many as the body has characters, and one more. -/
def sectionParts (line : ℕ) : ℕ → Text → Except Text (List Text)
  | 0, _ => .error (fail line "unexpected end of line".toList)
  | rounds + 1, body => do
    let (part, rest) ← readToken line '.' (skipSpaces body)
    match skipSpaces rest with
    | [] => pure [part]
    | '.' :: more => do
      let parts ← sectionParts line rounds more
      pure (part :: parts)
    | _ => throw (fail line "expected '.' in section name".toList)

/-- `[a.b."c.d"]` is `a`, `b` and `c.d`. -/
def parseSection (line : ℕ) (text : Text) : Except Text (List Text) :=
  if text.getLast? = some ']' then
    let body := (text.drop 1).dropLast
    sectionParts line (body.length + 1) body
  else .error (fail line "section must end with ']'".toList)

structure KeyValue where
  key : Text
  value : Text
  deriving DecidableEq, Repr

def parseKeyValue (line : ℕ) (text : Text) : Except Text KeyValue := do
  let (key, rest) ← readToken line '.' text
  match skipSpaces rest with
  | '=' :: more =>
    if trim more = [] then throw (fail line "expected a value".toList)
    else pure ⟨key, trim more⟩
  | _ => throw (fail line "expected '=' after key".toList)

def isQuoted (value : Text) : Bool :=
  2 ≤ value.length && value.head? == some '"' && value.getLast? == some '"'

def parseStringValue (value : Text) (line : ℕ) (context : Text) : Except Text Text :=
  if isQuoted value then .ok ((value.drop 1).dropLast)
  else .error (fail line (context ++ " expects a quoted string".toList))

def parseBoolValue (value : Text) (line : ℕ) (context : Text) : Except Text Bool :=
  if value = "true".toList then .ok true
  else if value = "false".toList then .ok false
  else .error (fail line (context ++ " expects true or false".toList))

def tableSetting (kv : KeyValue) (line : ℕ) : Except Text (TableEntry → TableEntry) := do
  if kv.key = "class".toList then
    let name ← parseStringValue kv.value line "class".toList
    pure fun t => { t with className := some name }
  else if kv.key = "skip".toList then
    let skip ← parseBoolValue kv.value line "skip".toList
    pure fun t => { t with skip := skip }
  else throw (fail line ("unknown table key: ".toList ++ kv.key))

def columnSetting (kv : KeyValue) (line : ℕ) : Except Text (ColumnOverride → ColumnOverride) := do
  if kv.key = "cpp_type".toList then
    let t ← parseStringValue kv.value line "cpp_type".toList
    pure fun c => { c with cppType := some t }
  else if kv.key = "converter".toList then
    let t ← parseStringValue kv.value line "converter".toList
    pure fun c => { c with converter := some t }
  else throw (fail line ("unknown column key: ".toList ++ kv.key))

/-- `table_entry` with what is done to the entry. -/
def changeTable (cfg : Config) (name : Text) (change : TableEntry → TableEntry) : Config :=
  { cfg with tables := changeEntry (foldLower name) {} change cfg.tables }

def applySetting (cfg : Config) (parts : List Text) (kv : KeyValue) (line : ℕ) :
    Except Text Config :=
  match parts with
  | [] => .error (fail line "unknown section".toList)
  | [kind] =>
    if kind = "types".toList then do
      let t ← parseStringValue kv.value line "[types] value".toList
      pure { cfg with typeOverrides := changeEntry (foldUpper kv.key) [] (fun _ => t) cfg.typeOverrides }
    else .error (fail line "unknown section".toList)
  | kind :: table :: more =>
    if kind ≠ "tables".toList then .error (fail line "unknown section".toList)
    else if table = [] then .error (fail line "empty table name in section".toList)
    else
      match more with
      | [] => do
        let change ← tableSetting kv line
        pure (changeTable cfg table change)
      | [columns, column] =>
        if columns ≠ "columns".toList then .error (fail line "unknown section".toList)
        else if column = [] then .error (fail line "empty column name in section".toList)
        else do
          let change ← columnSetting kv line
          pure (changeTable cfg table fun t =>
            { t with columns := changeEntry (foldLower column) {} change t.columns })
      | _ => .error (fail line "unknown section".toList)

/-- The lines without comments and outer spaces, counted from one. -/
def numberedLines (toml : Text) : List (Text × ℕ) :=
  ((toml.splitOn '\n').map fun raw => trim (stripComment false raw)).zipIdx 1

def parseLine (s : Config × List Text) (l : Text × ℕ) : Except Text (Config × List Text) :=
  match l.1 with
  | [] => .ok s
  | '[' :: cs => do
    let parts ← parseSection l.2 ('[' :: cs)
    pure (s.1, parts)
  | line =>
    if s.2 = [] then .error (fail l.2 "key outside of any section".toList)
    else do
      let kv ← parseKeyValue l.2 line
      let cfg ← applySetting s.1 s.2 kv l.2
      pure (cfg, s.2)

def parseConfig (toml : Text) : Except Text Config :=
  ((numberedLines toml).foldlM parseLine ({}, [])).map Prod.fst

/-- Named, so that the decisions below do not each carry a proof of it. -/
local instance lawfulBEq_text : LawfulBEq Text := inferInstance

def tableOffenders (model : SchemaModel) (listed : List Text) (e : Text × TableEntry) : List Text :=
  if e.1 ∉ listed then ["[tables.".toList ++ e.1 ++ [']']]
  else
    match model.tables.find? fun m => foldLower m.name = e.1 with
    | none => []
    | some table =>
      ((e.2.columns.map Prod.fst).filter fun column =>
          column ∉ table.columns.map fun c => foldLower c.shape.name).map fun column =>
        "[tables.".toList ++ e.1 ++ ".columns.".toList ++ column ++ [']']

def checkConfig (cfg : Config) (model : SchemaModel) (catalogTables : List Text) : Except Text Unit :=
  let offenders := cfg.tables.flatMap (tableOffenders model (catalogTables.map foldLower))
  if offenders = [] then .ok ()
  else .error ("config names no table or column: ".toList ++
    join (offenders.mergeSort fun a b => decide (a ≤ b)) ", ".toList)

end Uniorm.Gen
