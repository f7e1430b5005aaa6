import Uniorm.Foundation.Letters
import Uniorm.Foundation.Text
import Uniorm.Sql.Placeholder
import Uniorm.Sql.Token

/-! # Identifier quoting of the dialects

`dialect` with its fold policy and quoting. The dialect a connection uses is
detected from the server's name and may carry a policy of its own; its quotes
are the double quote or the backtick in every case, so what it quotes is read
back as one delimited identifier.
-/
namespace Uniorm.Builder
open Foundation Sql

inductive BuilderError where
  | identifierNul
  | updateBlankWhere
  | updateNoColumns
  | updateNoWhere
  | removeBlankWhere
  | removeNoWhere
  deriving DecidableEq, Repr

/-- The texts of the `uniorm_error`s thrown. -/
def BuilderError.what : BuilderError → String
  | .identifierNul => "identifier contains a NUL byte"
  | .updateBlankWhere => "update: where() requires a non-blank clause"
  | .updateNoColumns => "update: no columns to set"
  | .updateNoWhere => "update: refusing to execute without a WHERE clause"
  | .removeBlankWhere => "remove: where() requires a non-blank clause"
  | .removeNoWhere => "remove: refusing to execute without a WHERE clause"

inductive IdentifierCase where
  | keep | lower | upper
  deriving DecidableEq, Repr

inductive Qualification where
  | unsupported | schema | catalog
  deriving DecidableEq, Repr

structure Dialect where
  quoteOpen : Char := '"'
  quoteClose : Char := '"'
  ansiPagination : Bool := true
  identifiers : IdentifierCase := .keep
  tableQualification : Qualification := .unsupported
  deriving DecidableEq, Repr

def foldLower (name : Text) : Text := name.map Char.toLower

def foldUpper (name : Text) : Text := name.map Char.toUpper

theorem foldLower_foldLower (name : Text) : foldLower (foldLower name) = foldLower name := by
  rw [foldLower, foldLower, List.map_map]
  exact List.map_congr_left fun c _ => lower_lower c

theorem foldUpper_foldUpper (name : Text) : foldUpper (foldUpper name) = foldUpper name := by
  rw [foldUpper, foldUpper, List.map_map]
  exact List.map_congr_left fun c _ => upper_upper c

namespace Dialect

def foldIdentifier (d : Dialect) (identifier : Text) : Text :=
  match d.identifiers with
  | .lower => foldLower identifier
  | .upper => foldUpper identifier
  | .keep => identifier

def quoteExactIdentifier (d : Dialect) (identifier : Text) : Except BuilderError Text :=
  if '\x00' ∈ identifier then .error .identifierNul
  else .ok (d.quoteOpen ::
    (identifier.flatMap fun c => if c = d.quoteClose then [c, d.quoteClose] else [c]) ++
    [d.quoteClose])

def quoteIdentifier (d : Dialect) (identifier : Text) : Except BuilderError Text :=
  d.quoteExactIdentifier (d.foldIdentifier identifier)

def pagination (d : Dialect) (limit : Option ℕ) (offset : ℕ) : Text :=
  if limit = none ∧ offset = 0 then []
  else if d.ansiPagination then
    let skip := if 0 < offset then
      [' ', 'O', 'F', 'F', 'S', 'E', 'T', ' '] ++ numeral offset ++ [' ', 'R', 'O', 'W', 'S'] else []
    match limit with
    | none => skip
    | some n =>
      skip ++ (if skip = [] then
        [' ', 'O', 'F', 'F', 'S', 'E', 'T', ' ', '0', ' ', 'R', 'O', 'W', 'S'] else []) ++
        [' ', 'F', 'E', 'T', 'C', 'H', ' ', 'N', 'E', 'X', 'T', ' '] ++ numeral n ++
        [' ', 'R', 'O', 'W', 'S', ' ', 'O', 'N', 'L', 'Y']
  else
    (match limit with
      | none => []
      | some n => [' ', 'L', 'I', 'M', 'I', 'T', ' '] ++ numeral n) ++
    (if 0 < offset then [' ', 'O', 'F', 'F', 'S', 'E', 'T', ' '] ++ numeral offset else [])

def detect (dbmsName : Text) : Dialect :=
  let has (s : Text) : Bool := (breakOn s (foldLower dbmsName)).isSome
  if has ['m', 'y', 's', 'q', 'l'] || has ['m', 'a', 'r', 'i', 'a', 'd', 'b'] then
    { quoteOpen := '`', quoteClose := '`', ansiPagination := false,
      tableQualification := .catalog }
  else if has ['p', 'o', 's', 't', 'g', 'r', 'e', 's', 'q', 'l'] then
    { tableQualification := .schema, identifiers := .lower }
  else if has ['o', 'r', 'a', 'c', 'l', 'e'] then
    { tableQualification := .schema, identifiers := .upper }
  else {}

end Dialect

/-- `connection::sql_dialect`: the detected dialect, under the declared policy if there is one. -/
def sqlDialect (dbmsName : Text) (policy : Option IdentifierCase) : Dialect :=
  let d := Dialect.detect dbmsName
  { d with identifiers := policy.getD d.identifiers }

def Dialect.UsesQuote (d : Dialect) (q : Quote) : Prop :=
  d.quoteOpen = q.char ∧ d.quoteClose = q.char

def Dialect.quote (d : Dialect) : Quote := if d.quoteOpen = '`' then .backtick else .double

theorem sqlDialect_usesQuote (dbmsName : Text) (policy : Option IdentifierCase) :
    (sqlDialect dbmsName policy).UsesQuote (sqlDialect dbmsName policy).quote := by
  unfold sqlDialect Dialect.detect
  dsimp only
  split
  · exact ⟨rfl, rfl⟩
  · split
    · exact ⟨rfl, rfl⟩
    · split <;> exact ⟨rfl, rfl⟩

theorem quoteExactIdentifier_eq {d : Dialect} {q : Quote} (hq : d.UsesQuote q) {name text : Text}
    (h : d.quoteExactIdentifier name = .ok text) : text = delimited q name := by
  unfold Dialect.quoteExactIdentifier at h
  split at h
  · cases h
  · obtain rfl := Except.ok.inj h
    have hbody : name.flatMap (fun c => if c = d.quoteClose then [c, d.quoteClose] else [c]) =
        escaped q name := by
      unfold escaped
      congr 1
      funext c
      rw [hq.2]
      split_ifs with hc
      · rw [hc]
      · rfl
    rw [hbody, hq.1, hq.2, delimited]

theorem lex_quoteIdentifier {d : Dialect} {q : Quote} (hq : d.UsesQuote q) {name text : Text}
    (h : d.quoteIdentifier name = .ok text) : lex q text = some [.quoted (d.foldIdentifier name)] := by
  rw [quoteExactIdentifier_eq hq h]
  exact lex_delimited q _

end Uniorm.Builder
