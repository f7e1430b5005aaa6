import Mathlib.Data.List.DropRight
import Uniorm.Connection.Target
import Uniorm.Sql.Token

/-! # The string a data source is opened with

`dsn_string` spells a target, a user and a password as attributes of an ODBC connection string. A
value is braced where it holds anything the grammar looks at, so what a driver manager reads are the
three pieces and nothing else.
-/
namespace Uniorm.Odbc

open Foundation Connection

def isDelimiter (c : Char) : Bool :=
  c == ';' || c == '=' || c == '\x7b' || c == '\x7d'

def needsBraces (value : Text) : Bool :=
  value.any isDelimiter || value.head?.any Sql.isSpace || value.getLast?.any Sql.isSpace

def doubled (c : Char) : Text := if c = '\x7d' then [c, c] else [c]

def quoted (value : Text) : Text :=
  if needsBraces value then '\x7b' :: value.flatMap doubled ++ ['\x7d'] else value

def dsnString (target user password : Text) : Text :=
  "DSN=".toList ++ quoted target ++
    (if user = [] then [] else ";UID=".toList ++ quoted user) ++
    if password = [] then [] else ";PWD=".toList ++ quoted password

abbrev Attribute := Text × Text

/-- Where in a connection string a driver manager stands. -/
inductive Place where
  | keyword (k : Text)
  | start (k : Text)
  | plain (k v : Text)
  | braced (k v : Text)
  | closing (k v : Text)
  | failed
  deriving DecidableEq, Repr

structure AttributeReader where
  attributes : List Attribute
  place : Place
  deriving DecidableEq, Repr

namespace AttributeReader

def complete (p : AttributeReader) (k v : Text) : AttributeReader :=
  ⟨p.attributes ++ [(k, v)], .keyword []⟩

def read (p : AttributeReader) (c : Char) : AttributeReader :=
  match p.place with
  | .keyword k =>
    if c = '=' then { p with place := .start k }
    else if c = ';' then { p with place := if k = [] then .keyword [] else .failed }
    else { p with place := .keyword (k ++ [c]) }
  | .start k =>
    if c = '\x7b' then { p with place := .braced k [] }
    else if c = ';' then p.complete k []
    else { p with place := .plain k [c] }
  | .plain k v =>
    if c = ';' then p.complete k (trimBy Sql.isSpace v)
    else { p with place := .plain k (v ++ [c]) }
  | .braced k v =>
    if c = '\x7d' then { p with place := .closing k v }
    else { p with place := .braced k (v ++ [c]) }
  | .closing k v =>
    if c = '\x7d' then { p with place := .braced k (v ++ [c]) }
    else if c = ';' then p.complete k v
    else { p with place := .failed }
  | .failed => p

/-- At the end of the string. -/
def finish (p : AttributeReader) : Option (List Attribute) :=
  match p.place with
  | .keyword k => if k = [] then some p.attributes else none
  | .start k => some (p.attributes ++ [(k, [])])
  | .plain k v => some (p.attributes ++ [(k, trimBy Sql.isSpace v)])
  | .braced _ _ => none
  | .closing k v => some (p.attributes ++ [(k, v)])
  | .failed => none

def readAll (p : AttributeReader) (text : Text) : AttributeReader := text.foldl read p

end AttributeReader

def parseAttributes (text : Text) : Option (List Attribute) :=
  (AttributeReader.readAll ⟨[], .keyword []⟩ text).finish

namespace AttributeReader
variable {p : AttributeReader} {k v s : Text} {attributes : List Attribute}

theorem readAll_append (p : AttributeReader) (s t : Text) :
    p.readAll (s ++ t) = (p.readAll s).readAll t :=
  List.foldl_append ..

/-- Everything in front has been read as these attributes, and a semicolon would end the last. -/
structure Done (p : AttributeReader) (attributes : List Attribute) : Prop where
  finish : p.finish = some attributes
  semicolon : p.read ';' = ⟨attributes, .keyword []⟩

theorem readAll_plain {value : Text} (hplain : ∀ c ∈ value, c ≠ ';') (front : Text) :
    readAll ⟨attributes, .plain k front⟩ value = ⟨attributes, .plain k (front ++ value)⟩ := by
  induction value generalizing front with
  | nil => simp [readAll]
  | cons c value ih =>
    have hc : read ⟨attributes, .plain k front⟩ c = ⟨attributes, .plain k (front ++ [c])⟩ := by
      simp [read, hplain c List.mem_cons_self]
    rw [readAll, List.foldl_cons, hc]
    exact (ih (fun d hd => hplain d (List.mem_cons_of_mem _ hd)) (front ++ [c])).trans (by simp)

theorem readAll_braced (value front : Text) :
    readAll ⟨attributes, .braced k front⟩ (value.flatMap doubled) =
      ⟨attributes, .braced k (front ++ value)⟩ := by
  induction value generalizing front with
  | nil => simp [readAll]
  | cons c value ih =>
    have hc : readAll ⟨attributes, .braced k front⟩ (doubled c) =
        ⟨attributes, .braced k (front ++ [c])⟩ := by
      by_cases hclose : c = '\x7d'
      · simp [doubled, hclose, readAll, read]
      · simp [doubled, hclose, readAll, read]
    rw [List.flatMap_cons, readAll_append, hc, ih, List.append_assoc]
    rfl

/-- A value is read as it was spelled, whatever stands in it. -/
theorem done_quoted (attributes : List Attribute) (k value : Text) :
    Done (readAll ⟨attributes, .start k⟩ (quoted value)) (attributes ++ [(k, value)]) := by
  unfold quoted
  split_ifs with hbraces
  · have hopen : readAll ⟨attributes, .start k⟩ ('\x7b' :: value.flatMap doubled) =
        ⟨attributes, .braced k value⟩ := readAll_braced value []
    rw [readAll_append, hopen]
    exact ⟨rfl, rfl⟩
  · have hnone : needsBraces value = false := by simpa using hbraces
    simp only [needsBraces, Bool.or_eq_false_iff] at hnone
    obtain ⟨⟨hdelimiter, hfirst⟩, hlast⟩ := hnone
    have htrim := trimBy_of_not_outer hfirst hlast
    have hplain : ∀ c ∈ value, c ≠ ';' ∧ c ≠ '\x7b' := by
      intro c hc
      have hnot := List.any_eq_false.mp hdelimiter c hc
      simp only [isDelimiter, Bool.or_eq_true, beq_iff_eq, not_or] at hnot
      exact ⟨hnot.1.1.1, hnot.1.2⟩
    cases value with
    | nil => exact ⟨rfl, rfl⟩
    | cons c value =>
      obtain ⟨hsemicolon, hbrace⟩ := hplain c List.mem_cons_self
      have hc : read ⟨attributes, .start k⟩ c = ⟨attributes, .plain k [c]⟩ := by
        simp [read, hsemicolon, hbrace]
      have hrest := @readAll_plain k attributes value
        (fun d hd => (hplain d (List.mem_cons_of_mem _ hd)).1) [c]
      rw [readAll, List.foldl_cons, hc]
      change Done (readAll _ value) _
      rw [hrest]
      exact ⟨by simp [finish, htrim], by simp [read, complete, htrim]⟩

theorem Done.append (h : p.Done attributes) (keyword : Text)
    (hkeyword : readAll ⟨attributes, .keyword []⟩ keyword = ⟨attributes, .start k⟩)
    (value : Text) :
    Done (p.readAll (';' :: keyword ++ quoted value)) (attributes ++ [(k, value)]) := by
  rw [List.cons_append, readAll, List.foldl_cons, h.semicolon]
  change Done (readAll _ (keyword ++ quoted value)) _
  rw [readAll_append, hkeyword]
  exact done_quoted attributes k value

end AttributeReader

open AttributeReader

/-- The string of three pieces is read as the three, the empty user and password left out. -/
theorem dsn_string_exact (target user password : Text) :
    parseAttributes (dsnString target user password) =
      some (("DSN".toList, target) :: (if user = [] then [] else [("UID".toList, user)]) ++
        if password = [] then [] else [("PWD".toList, password)]) := by
  unfold parseAttributes dsnString
  have hdsn : Done (AttributeReader.readAll ⟨[], .keyword []⟩ ("DSN=".toList ++ quoted target))
      [("DSN".toList, target)] := by
    rw [readAll_append]
    exact done_quoted [] "DSN".toList target
  have huser : Done (AttributeReader.readAll ⟨[], .keyword []⟩ ("DSN=".toList ++ quoted target ++
      if user = [] then [] else ";UID=".toList ++ quoted user))
      (("DSN".toList, target) :: if user = [] then [] else [("UID".toList, user)]) := by
    split_ifs
    · rwa [List.append_nil]
    · rw [readAll_append]
      exact hdsn.append "UID=".toList rfl user
  rw [readAll_append]
  by_cases hpassword : password = []
  · rw [if_pos hpassword, if_pos hpassword, List.append_nil]
    exact huser.finish
  · rw [if_neg hpassword, if_neg hpassword]
    exact (huser.append "PWD=".toList rfl password).finish

end Uniorm.Odbc
