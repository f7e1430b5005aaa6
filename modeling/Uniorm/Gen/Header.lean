import Mathlib.Data.Char
import Mathlib.Data.List.Lex
import Uniorm.Foundation.Sorted
import Uniorm.Gen.Schema
import Uniorm.Sql.Placeholder

/-! # The generated header

`generate_header` appends text; here every appended text is a chunk that says
what it is there for, a name of the program, a string literal, or anything else.
The header is the texts of the chunks one after the other.
-/
namespace Uniorm.Gen

open Foundation Sql Builder Cpp

inductive Chunk where
  | raw (text : Text)
  | name (text : Text)
  | literal (text : Text)

namespace Chunk

/-- What is appended. Literals are put between quotes as they are. -/
def text : Chunk → Text
  | raw t => t
  | name t => t
  | literal t => '"' :: (t ++ ['"'])

/-- Text of the generator itself. -/
def lit (s : String) : Chunk := raw s.toList

end Chunk

def render (chunks : List Chunk) : Text := chunks.flatMap Chunk.text

inductive ConfigError where
  | unbindable (location cppType : Text)
  | collide (collisions : List Text)
  deriving DecidableEq, Repr

def join (items : List Text) (separator : Text) : Text := separator.intercalate items

/-- The texts of the `config_error`s thrown. -/
def ConfigError.what : ConfigError → Text
  | unbindable location cppType => location ++ ": cpp type '".toList ++ cppType ++
      ("' cannot be bound by the v1 registry (allowed: bool, std::int16_t..int64_t, double, " ++
        "std::string, std::vector<std::byte>, uniorm::timestamp, uniorm::decimal_t; " ++
        "a domain type goes under converter = \"...\")").toList
  | collide collisions =>
    "tables collide on one class name: ".toList ++ join collisions "; ".toList

def normalizeType (t : Text) : Text := t.filter fun c => !c.isWhitespace && c != '\x0b' && c != '\x0c'

def bindableTypes : List Text :=
  ["bool", "std::int16_t", "std::int32_t", "std::int64_t", "double", "std::string",
    "std::vector<std::byte>", "uniorm::timestamp", "timestamp", "uniorm::decimal_t",
    "decimal_t"].map String.toList

def checkBindable (t location : Text) : Except ConfigError Text :=
  if bindableTypes.contains (normalizeType t) then .ok (normalizeType t)
  else .error (.unbindable location t)

def defaultCppType (col : ColumnModel) (location : Text) : Text × List Text :=
  match col.shape.type with
  | .boolean => ("bool".toList, [])
  | .smallint => ("std::int16_t".toList, [])
  | .integer => ("std::int32_t".toList, [])
  | .bigint => ("std::int64_t".toList, [])
  | .real => ("double".toList,
      [location ++ ": REAL/FLOAT mapped to double (float is not bindable)".toList])
  | .doublePrecision => ("double".toList, [])
  | .decimal | .character | .varchar | .longvarchar | .wchar | .wvarchar | .guid =>
    ("std::string".toList, [])
  | .binary | .varbinary => ("std::vector<std::byte>".toList, [])
  | .date | .time | .timestamp => ("uniorm::timestamp".toList, [])
  | .other => ("std::string".toList, [location ++ ": unmapped SQL type '".toList ++ col.typeName ++
      "', using std::string".toList])

/-- `std::to_string` of a signed number. -/
def signed : ℤ → Text
  | .ofNat n => numeral n
  | .negSucc n => '-' :: numeral (n + 1)

def findTypeOverride (col : ColumnModel) (cfg : GenConfig) : Option Text :=
  let base := foldUpper col.typeName
  (cfg.typeOverrides (base ++ ['('] ++ signed col.size ++ [','] ++ signed col.decimals ++ [')'])) <|>
    cfg.typeOverrides base

def columnComment (col : ColumnModel) : Text :=
  col.typeName ++
  (if 0 < col.size then ['('] ++ signed col.size ++
    (if 0 < col.decimals then [','] ++ signed col.decimals else []) ++ [')'] else []) ++
  (if col.primaryKey then " PK".toList else []) ++
  (if col.shape.nullable then [] else " NOT NULL".toList) ++
  match col.defaultValue with
  | none => []
  | some value => " DEFAULT ".toList ++ value

def tableConfigFor (cfg : GenConfig) (table : TableModel) : Option TableConfig :=
  cfg.tables (foldLower table.name)

def emittedClass (cfg : GenConfig) (table : TableModel) : Option Text :=
  match tableConfigFor cfg table with
  | none => some (toPascalCase table.name)
  | some tcfg => if tcfg.skip then none else some (tcfg.className.getD (toPascalCase table.name))

def emitted (cfg : GenConfig) (model : SchemaModel) : List (TableModel × Text) :=
  model.tables.filterMap fun table => (emittedClass cfg table).map fun name => (table, name)

def collisionReport (className : Text) (tables : List Text) : Text :=
  let twins := ((sortUnique id (tables.map foldLower)).map fun key : Text =>
    tables.filter fun name => foldLower name = key).filter fun names => 1 < names.length
  let twins := twins.map fun names => join names ", ".toList
  let out := ['\''] ++ className ++ "' names ".toList ++ join tables ", ".toList
  if twins = [] then out ++ ". Set class in one of their [tables.*] sections.".toList
  else out ++ ". ".toList ++ join twins ", ".toList ++
    (" differ by case alone, which no [tables.*] section can split: ask for one of them " ++
      "with --tables.").toList

def checkClassNames (emitted : List (TableModel × Text)) : Except ConfigError Unit :=
  let groups := (sortUnique id (emitted.map Prod.snd)).map fun key : Text =>
    (key, (emitted.filter fun p => p.2 = key).map fun p => p.1.name)
  let collisions := (groups.filter fun g => 1 < g.2.length).map fun g => collisionReport g.1 g.2
  if collisions = [] then .ok () else .error (.collide collisions)

structure MemberInfo where
  member : Text
  cppType : Text
  col : ColumnModel
  throughConverter : Bool

def memberType (cfg : GenConfig) (ovr : Option ColumnOverride) (col : ColumnModel)
    (location : Text) : Except ConfigError (Text × Bool × List Text) :=
  match ovr.bind ColumnOverride.converter, ovr.bind ColumnOverride.cppType,
      findTypeOverride col cfg with
  | some converter, _, _ => .ok (normalizeType converter, true, [])
  | none, some t, _ => (checkBindable t location).map fun t => (t, false, [])
  | none, none, some t => (checkBindable t location).map fun t => (t, false, [])
  | none, none, none =>
    let t := defaultCppType col location
    .ok (t.1, false, t.2)

def locationOf (table : TableModel) (col : ColumnModel) : Text :=
  table.name ++ ['.'] ++ col.shape.name

/-- The name of the `i`th member. -/
def memberName (i : ℕ) (used : List Text) (col : ColumnModel) : Text :=
  if used.contains (toCamelCase col.shape.name) then toCamelCase col.shape.name ++ numeral i
  else toCamelCase col.shape.name

def renameWarning (i : ℕ) (used : List Text) (table : TableModel) (col : ColumnModel) : List Text :=
  if used.contains (toCamelCase col.shape.name) then [locationOf table col ++
    ": member name collision, renamed to '".toList ++ memberName i used col ++ ['\'']] else []

/-- The loop of `build_members` from the `i`th column on. -/
def buildMembersFrom (table : TableModel) (cfg : GenConfig) (i : ℕ) (used : List Text) :
    List ColumnModel → Except ConfigError (List MemberInfo × List Text)
  | [] => .ok ([], [])
  | col :: cols => do
    let ovr := (tableConfigFor cfg table).bind fun t => t.columns (foldLower col.shape.name)
    let (cppType, throughConverter, warnings) ← memberType cfg ovr col (locationOf table col)
    let member := memberName i used col
    let (members, more) ← buildMembersFrom table cfg (i + 1) (member :: used) cols
    pure (⟨member, cppType, col, throughConverter⟩ :: members,
      warnings ++ renameWarning i used table col ++ more)

def buildMembers (table : TableModel) (cfg : GenConfig) :
    Except ConfigError (List MemberInfo × List Text) :=
  buildMembersFrom table cfg 0 [] table.columns

def fkLines (fk : FkModel) : List Chunk :=
  fk.columns.map fun p => .raw ("// FK: ".toList ++ p.1 ++ " -> ".toList ++ fk.pkTable ++ ['('] ++
    p.2 ++ [')', '\n'])

def indexLine (idx : IndexModel) : Chunk :=
  .raw ("// index: ".toList ++ idx.name ++ [' ', '('] ++ join idx.columns ", ".toList ++ [')'] ++
    (if idx.unique then " UNIQUE".toList else []) ++ ['\n'])

def memberLine (m : MemberInfo) : List Chunk :=
  let decl := if m.col.shape.nullable then "std::optional<".toList ++ m.cppType ++ ['>']
    else m.cppType
  [.raw ([' ', ' '] ++ decl ++ [' ']), .name m.member,
    .raw (";  // ".toList ++ columnComment m.col ++ ['\n'])]

def converterChecks : List Text → List MemberInfo → List Chunk
  | _, [] => []
  | asserted, m :: ms =>
    if !m.throughConverter || asserted.contains m.cppType then converterChecks asserted ms
    else .raw ("static_assert(uniorm::has_converter<".toList ++ m.cppType ++ ">,\n  \"".toList ++
      m.cppType ++ " needs a uniorm::converter specialization\");\n\n".toList) ::
      converterChecks (asserted ++ [m.cppType]) ms

def mappingName (className : Text) : Text :=
  "register_".toList ++ className ++ "_mapping".toList

def columnCall (className : Text) (m : MemberInfo) : List Chunk :=
  [.lit (if m.col.primaryKey then "\n    .primary_key(" else "\n    .column("),
    .literal m.col.shape.name, .lit ", &", .name className, .lit "::", .name m.member, .lit ")"]

/-- The text `emit_table` appends, once the members are known. -/
def tableChunks (table : TableModel) (className : Text) (members : List MemberInfo) :
    List Chunk :=
  [.raw ("// table: ".toList ++ table.name ++ ['\n'])] ++
  table.foreignKeys.flatMap fkLines ++ table.indexes.map indexLine ++
  [.lit "struct ", .name className, .lit " \x7b\n"] ++ members.flatMap memberLine ++
  [.lit "\x7d;\n\n"] ++ converterChecks [] members ++
  [.lit "inline void ", .name (mappingName className), .lit "(uniorm::orm& registry) \x7b\n",
    .lit "  registry.map<", .name className, .lit ">(", .literal table.name, .lit ")"] ++
  members.flatMap (columnCall className) ++ [.lit ";\n\x7d\n\n"]

def emitTable (cfg : GenConfig) (p : TableModel × Text) :
    Except ConfigError (List Chunk × List Text) := do
  let (members, warnings) ← buildMembers p.1 cfg
  pure (tableChunks p.1 p.2 members, warnings)

structure GeneratedOutput where
  chunks : List Chunk
  warnings : List Text

def GeneratedOutput.text (out : GeneratedOutput) : Text := render out.chunks

def schemaName (unit : Text) : Text := "register_".toList ++ unit ++ "_schema".toList

def preamble (unit : Text) : List Chunk :=
  [.lit "// Generated by uniorm-gen. Do not edit.\n", .lit "#pragma once\n\n",
    .lit "#include <cstddef>\n", .lit "#include <cstdint>\n", .lit "#include <optional>\n",
    .lit "#include <string>\n", .lit "#include <vector>\n\n",
    .lit "#include <uniorm/decimal.hpp>\n", .lit "#include <uniorm/mapping/registry.hpp>\n",
    .lit "#include <uniorm/orm.hpp>\n\n", .lit "namespace ", .name unit, .lit " \x7b\n\n"]

def registerCall (className : Text) : List Chunk :=
  [.lit "  ", .name (mappingName className), .lit "(registry);\n"]

def closing (unit : Text) (classNames : List Text) : List Chunk :=
  [.lit "inline void ", .name (schemaName unit), .lit "(uniorm::orm& registry) \x7b\n"] ++
  classNames.flatMap registerCall ++
  [.lit "\x7d\n\n", .raw ("\x7d  // namespace ".toList ++ unit ++ ['\n'])]

def generateHeader (model : SchemaModel) (cfg : GenConfig) :
    Except ConfigError GeneratedOutput := do
  let tables := emitted cfg model
  checkClassNames tables
  let parts ← tables.mapM (emitTable cfg)
  pure ⟨preamble model.name ++ parts.flatMap Prod.fst ++ closing model.name (tables.map Prod.snd),
    parts.flatMap Prod.snd⟩

end Uniorm.Gen
