import Uniorm.Foundation.Text

/-! # What a connection is opened from

A target is a connection string or a `connection_spec`. The scheme of a string
is read by `parse_scheme`; the rest of an ODBC string is a keyword list. Two
targets name the same place and the same user when nothing but the password
tells them apart: `SamePlace` is this reading, independent of the pool key.
Strings are lists of characters standing for bytes, and case mapping is the
ASCII one of the C locale.
-/
namespace Uniorm.Connection
open Foundation

abbrev Text := List Char

/-- The four pieces of `connection_spec`. -/
structure ConnectionSpec where
  scheme : Text
  target : Text
  user : Text
  password : Text
  deriving DecidableEq, Repr

/-- `pool_options::target`: the caller's own string, or the pieces. -/
inductive Target where
  | string (connectionString : Text)
  | spec (pieces : ConnectionSpec)
  deriving DecidableEq, Repr

def toLower (s : Text) : Text := s.map Char.toLower

/-- The blanks of `trim`: `" \t\r\n"`. -/
def isBlank (c : Char) : Bool := c == ' ' || c == '\t' || c == '\r' || c == '\n'

def trim (s : Text) : Text := trimBy isBlank s

theorem toLower_length (s : Text) : (toLower s).length = s.length := List.length_map _

def validSchemeChar (c : Char) (first : Bool) : Bool :=
  if first then c.isAlpha else c.isAlphanum || c == '+' || c == '.' || c == '-'

structure ParsedScheme where
  scheme : Text
  tail : Text
  deriving DecidableEq, Repr

def odbcScheme : Text := ['o', 'd', 'b', 'c']

def schemeMark : Text := [':', '/', '/']

/-- A string without a well-formed `scheme://` in front is an ODBC string as a whole. -/
def parseScheme (cs : Text) : ParsedScheme :=
  match breakOn schemeMark cs with
  | none => ⟨odbcScheme, cs⟩
  | some ([], _) => ⟨odbcScheme, cs⟩
  | some (c :: rest, tail) =>
    if validSchemeChar c true && rest.all (validSchemeChar · false) then
      ⟨toLower (c :: rest), tail⟩
    else ⟨odbcScheme, cs⟩

inductive KeywordReader where
  | keyword (seen : Text)
  | value (key seen : Text)
  | braced (key seen : Text)
  | closing (key seen : Text)
  | skipping
  deriving DecidableEq, Repr

/-- The attributes of an ODBC keyword list: `;` separates, a keyword is trimmed and folded, a
value in braces may hold `;` and doubles its closing brace, any other value is trimmed. -/
def attributesFrom : KeywordReader → Text → List (Text × Text)
  | .keyword _, [] => []
  | .keyword seen, c :: cs =>
    if c = ';' then attributesFrom (.keyword []) cs
    else if c = '=' then attributesFrom (.value (toLower (trim seen)) []) cs
    else attributesFrom (.keyword (seen ++ [c])) cs
  | .value key seen, [] => [(key, trim seen)]
  | .value key seen, c :: cs =>
    if c = ';' then (key, trim seen) :: attributesFrom (.keyword []) cs
    else if c = '{' ∧ trim seen = [] then attributesFrom (.braced key []) cs
    else attributesFrom (.value key (seen ++ [c])) cs
  | .braced key seen, [] => [(key, seen)]
  | .braced key seen, c :: cs =>
    if c = '}' then attributesFrom (.closing key seen) cs
    else attributesFrom (.braced key (seen ++ [c])) cs
  | .closing key seen, [] => [(key, seen)]
  | .closing key seen, c :: cs =>
    if c = '}' then attributesFrom (.braced key (seen ++ ['}'])) cs
    else if c = ';' then (key, seen) :: attributesFrom (.keyword []) cs
    else (key, seen) :: attributesFrom .skipping cs
  | .skipping, [] => []
  | .skipping, c :: cs =>
    if c = ';' then attributesFrom (.keyword []) cs else attributesFrom .skipping cs

def attributes (s : Text) : List (Text × Text) := attributesFrom (.keyword []) s

def keywordValue (s : Text) (key : Text) : Option Text := (attributes s).lookup key

def passwordKeywords : List Text := [['p', 'w', 'd'], ['p', 'a', 's', 's', 'w', 'o', 'r', 'd']]

/-- Same scheme and, apart from the password, the same keyword values, or the same tail for a
scheme that is not ODBC's. A string and a spec never name the same place. -/
def SamePlace : Target → Target → Prop
  | .string a, .string b =>
    (parseScheme a).scheme = (parseScheme b).scheme ∧
      if (parseScheme a).scheme = odbcScheme then
        ∀ key, key ∉ passwordKeywords →
          keywordValue (parseScheme a).tail key = keywordValue (parseScheme b).tail key
      else (parseScheme a).tail = (parseScheme b).tail
  | .spec p, .spec q =>
    toLower p.scheme = toLower q.scheme ∧ p.target = q.target ∧ p.user = q.user
  | _, _ => False

theorem SamePlace.refl (t : Target) : SamePlace t t := by
  cases t with
  | string s =>
    refine ⟨rfl, ?_⟩
    split
    · intro key _
      rfl
    · rfl
  | spec p => exact ⟨rfl, rfl, rfl⟩

def serverKeyword : Text := ['s', 'e', 'r', 'v', 'e', 'r']

/-- A string with one more keyword, which changes the place it names, whatever it is. -/
def withServer (v : Char) (s : Text) : Text := serverKeyword ++ '=' :: v :: ';' :: s

/-- The added `=` is no scheme character, so the longer string is an ODBC string as a whole. -/
theorem parseScheme_withServer {v : Char} (hv : v ≠ ':') (s : Text) :
    parseScheme (withServer v s) = ⟨odbcScheme, withServer v s⟩ := by
  have hpre : ':' ∉ serverKeyword ++ ['=', v, ';'] := by
    simp [serverKeyword, Ne.symm hv]
  have hsplit : breakOn schemeMark (withServer v s) =
      (breakOn schemeMark s).map fun p => (serverKeyword ++ '=' :: v :: ';' :: p.1, p.2) := by
    have h := breakOn_append (r := ['/', '/']) hpre s
    simp only [List.append_assoc, List.cons_append, List.nil_append] at h
    exact h
  have hbad : ∀ rest : Text, (('e' :: 'r' :: 'v' :: 'e' :: 'r' :: '=' :: v :: ';' :: rest).all
      (validSchemeChar · false)) = false := by
    intro rest
    have heq : validSchemeChar '=' false = false := by decide
    simp [heq]
  unfold parseScheme
  rw [hsplit]
  cases breakOn schemeMark s with
  | none => rfl
  | some p =>
    simp only [serverKeyword, Option.map_some, List.cons_append, List.nil_append, hbad p.1,
      Bool.and_false, Bool.false_eq_true, if_false]

theorem keywordValue_withServer {v : Char} (hv : v = '0' ∨ v = '1') (s : Text) :
    keywordValue (withServer v s) serverKeyword = some [v] := by
  have hread : ∀ v' : Char, v' = '0' ∨ v' = '1' →
      attributes (withServer v' s) = (serverKeyword, [v']) :: attributes s := by
    rintro v' (rfl | rfl) <;> rfl
  rw [keywordValue, hread v hv, List.lookup_cons_self]

/-- Every string has a companion that names another place. -/
theorem exists_withServer_not_samePlace (s : Text) :
    ∃ v, (v = '0' ∨ v = '1') ∧ ¬ SamePlace (.string (withServer v s)) (.string s) := by
  obtain ⟨v, hv, hne⟩ : ∃ v, (v = '0' ∨ v = '1') ∧
      keywordValue (parseScheme s).tail serverKeyword ≠ some [v] := by
    by_cases h : keywordValue (parseScheme s).tail serverKeyword = some ['0']
    · exact ⟨'1', .inr rfl, by rw [h]; decide⟩
    · exact ⟨'0', .inl rfl, h⟩
  refine ⟨v, hv, ?_⟩
  have hcolon : v ≠ ':' := by rcases hv with rfl | rfl <;> decide
  rintro ⟨-, hplace⟩
  rw [parseScheme_withServer hcolon, if_pos rfl] at hplace
  have hserver := hplace serverKeyword (by decide)
  rw [keywordValue_withServer hv] at hserver
  exact hne hserver.symm

end Uniorm.Connection
