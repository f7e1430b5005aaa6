import Uniorm.Builder.Dialect
import Uniorm.Cpp.Token

/-! # The names of the generator

A catalog name is split into words at separators and at changes of case, and
the words are joined into the name of a class or of a member. Splitting drops
the separators and nothing else, so a name is made of letters, digits and
underscores exactly when the catalog name has no other character than those and
the separators.
-/
namespace Uniorm.Gen

open Sql Builder Cpp

def isSeparator (c : Char) : Bool := c == '_' || c == '-' || c == ' ' || c == '.'

/-- What the loop of `split_words` keeps. -/
structure Splitting where
  words : List Text := []
  current : Text := []

namespace Splitting

def flush (s : Splitting) : Splitting :=
  if s.current = [] then s else ⟨s.words ++ [foldLower s.current], []⟩

def lastIs (s : Splitting) (p : Char → Bool) : Bool := s.current.getLast?.any p

def step (s : Splitting) (ch : Char) : Splitting :=
  if isSeparator ch then s.flush
  else if ch.isUpper && (s.lastIs Char.isLower || s.lastIs Char.isDigit) then
    { s.flush with current := s.flush.current ++ [ch] }
  else if ch.isLower && 2 ≤ s.current.length && s.lastIs Char.isUpper &&
      s.current.dropLast.getLast?.any Char.isUpper then
    -- the last of a run of capitals starts the new word
    let cut := { s with current := s.current.dropLast }.flush
    { cut with current := cut.current ++ s.current.getLast?.toList ++ [ch] }
  else { s with current := s.current ++ [ch] }

def taken (s : Splitting) : Text := s.words.flatten ++ foldLower s.current

end Splitting

def splitWords (name : Text) : List Text := (name.foldl Splitting.step {}).flush.words

def fixIdentifier (id : Text) : Text :=
  if id = [] then ['_']
  else
    let id := if id.head?.any Char.isDigit then '_' :: id else id
    if keywords.contains id then id ++ ['_'] else id

def capitalized : Text → Text
  | [] => []
  | c :: cs => c.toUpper :: cs

def toPascalCase (identifier : Text) : Text :=
  fixIdentifier ((splitWords identifier).flatMap capitalized)

def toCamelCase (identifier : Text) : Text :=
  fixIdentifier (match splitWords identifier with
    | [] => []
    | word :: words => word ++ words.flatMap capitalized)

def toUnitName (identifier : Text) : Text :=
  fixIdentifier (identifier.map fun c => if c.isAlphanum then c.toLower else '_')

/-- The unit `generate_from` names the schema by. -/
def unitName (name : Text) : Text :=
  if toUnitName name = ['_'] then ['d', 'b'] else toUnitName name

theorem flush_taken (s : Splitting) : s.flush.taken = s.taken := by
  rw [Splitting.flush]
  split_ifs with hempty
  · rfl
  · simp [Splitting.taken, foldLower]

theorem flush_current (s : Splitting) : s.flush.current = [] := by
  rw [Splitting.flush]
  split_ifs with hempty
  · exact hempty
  · rfl

theorem taken_append (s : Splitting) (more : Text) :
    ({ s with current := s.current ++ more } : Splitting).taken = s.taken ++ foldLower more := by
  simp [Splitting.taken, foldLower]

theorem step_taken (s : Splitting) (ch : Char) :
    (s.step ch).taken = s.taken ++ if isSeparator ch then [] else [ch.toLower] := by
  rw [Splitting.step]
  by_cases hsep : isSeparator ch = true
  · rw [if_pos hsep, if_pos hsep, flush_taken, List.append_nil]
  · rw [if_neg hsep, if_neg hsep]
    split_ifs with hupper hlower
    · rw [taken_append, flush_taken]
      rfl
    · have hcut := taken_append ({ s with current := s.current.dropLast } : Splitting).flush
        (s.current.getLast?.toList ++ [ch])
      rw [← List.append_assoc, flush_taken] at hcut
      have hlast : s.current.dropLast ++ s.current.getLast?.toList = s.current := by
        cases hend : s.current.getLast? with
        | none => simp [List.getLast?_eq_none_iff.mp hend]
        | some c => exact List.dropLast_append_getLast? c hend
      have hwhole := taken_append ({ s with current := s.current.dropLast } : Splitting)
        s.current.getLast?.toList
      rw [hlast] at hwhole
      rw [hcut, foldLower, List.map_append, ← List.append_assoc, ← foldLower, ← hwhole]
      rfl
    · rw [taken_append]
      rfl

theorem splitWords_flatten (name : Text) :
    (splitWords name).flatten = foldLower (name.filter fun c => !isSeparator c) := by
  have hrun : ∀ s : Splitting, (name.foldl Splitting.step s).taken =
      s.taken ++ foldLower (name.filter fun c => !isSeparator c) := by
    induction name with
    | nil => intro s; simp [foldLower]
    | cons c cs ih =>
      intro s
      rw [List.foldl_cons, ih, step_taken]
      by_cases hsep : isSeparator c = true <;> simp [hsep, foldLower]
  have hflush := flush_taken (name.foldl Splitting.step {})
  rw [Splitting.taken, flush_current, hrun] at hflush
  simpa [splitWords, foldLower, Splitting.taken] using hflush

def isNameChar (c : Char) : Bool := c.isAlphanum || isSeparator c

theorem fixIdentifier_notKeyword (id : Text) : fixIdentifier id ∉ keywords := by
  rw [fixIdentifier]
  by_cases hempty : id = []
  · rw [if_pos hempty]
    exact not_keyword_of_getLast? rfl (Or.inl rfl)
  · rw [if_neg hempty]
    dsimp only
    generalize (if id.head?.any Char.isDigit then '_' :: id else id) = fixed
    by_cases hkeyword : fixed ∈ keywords
    · rw [if_pos (List.contains_iff_mem.mpr hkeyword)]
      exact not_keyword_of_getLast? List.getLast?_concat (Or.inl rfl)
    · rw [if_neg (mt List.contains_iff_mem.mp hkeyword)]
      exact hkeyword

/-- A leading underscore and a trailing one are all that is needed. -/
theorem fixIdentifier_isIdentifier (id : Text) :
    isIdentifier (fixIdentifier id) = id.all isIdentifierChar := by
  rw [fixIdentifier]
  by_cases hempty : id = []
  · rw [hempty]
    rfl
  · rw [if_neg hempty]
    dsimp only
    obtain ⟨c, cs, rfl⟩ := List.exists_cons_of_ne_nil hempty
    have hfixed : isIdentifier (if (c :: cs).head?.any Char.isDigit then '_' :: c :: cs
        else c :: cs) = (c :: cs).all isIdentifierChar := by
      cases hdigit : c.isDigit with
      | true =>
        rw [List.head?_cons, Option.any_some, hdigit, if_pos rfl]
        rfl
      | false =>
        rw [List.head?_cons, Option.any_some, hdigit, if_neg Bool.false_ne_true]
        exact isIdentifier_cons hdigit
    revert hfixed
    generalize (if (c :: cs).head?.any Char.isDigit then '_' :: c :: cs else c :: cs) = fixed
    intro hfixed
    by_cases hkeyword : fixed ∈ keywords
    · have hall : ∀ k ∈ keywords, isIdentifier k = true := by decide
      rw [if_pos (List.contains_iff_mem.mpr hkeyword), isIdentifier_append (hall fixed hkeyword),
        ← hfixed, hall fixed hkeyword]
      rfl
    · rw [if_neg (mt List.contains_iff_mem.mp hkeyword), hfixed]

/-- The name is in what it is made into. -/
theorem infix_fixIdentifier (id : Text) : id <:+: fixIdentifier id := by
  rw [fixIdentifier]
  by_cases hempty : id = []
  · rw [hempty]
    exact List.nil_infix
  · rw [if_neg hempty]
    dsimp only
    have hfixed : id <:+: if id.head?.any Char.isDigit then '_' :: id else id := by
      split_ifs
      · exact (List.suffix_cons '_' id).isInfix
      · exact List.infix_rfl
    split_ifs at hfixed ⊢
    all_goals first
      | exact hfixed
      | exact hfixed.trans (List.prefix_append _ _).isInfix

theorem isIdentifier_of_all_fixIdentifier {id : Text}
    (h : (fixIdentifier id).all isIdentifierChar = true) : isIdentifier (fixIdentifier id) = true := by
  rw [fixIdentifier_isIdentifier, List.all_eq_true]
  rw [List.all_eq_true] at h
  exact fun c hc => h c ((infix_fixIdentifier id).subset hc)

theorem all_capitalized (word : Text) :
    (capitalized word).all isIdentifierChar = word.all isIdentifierChar := by
  cases word with
  | nil => rfl
  | cons c cs => rw [capitalized, List.all_cons, List.all_cons, isIdentifierChar_toUpper]

theorem all_flatMap_capitalized (words : List Text) :
    (words.flatMap capitalized).all isIdentifierChar = words.flatten.all isIdentifierChar := by
  induction words with
  | nil => rfl
  | cons word words ih =>
    rw [List.flatMap_cons, List.all_append, all_capitalized, ih, List.flatten_cons,
      List.all_append]

/-- The words of a name are made of identifier characters when nothing but separators has to be
dropped from it. -/
theorem all_splitWords (name : Text) :
    (splitWords name).flatten.all isIdentifierChar = name.all isNameChar := by
  rw [splitWords_flatten, foldLower, List.all_map, List.all_filter]
  congr 1
  funext c
  rw [Function.comp_apply, isIdentifierChar_toLower, isNameChar, isIdentifierChar]
  cases hsep : isSeparator c with
  | true => simp
  | false =>
    have hscore : (c == '_') = false := by
      simp only [isSeparator, Bool.or_eq_false_iff] at hsep
      exact hsep.1.1.1
    simp [hscore]

theorem toPascalCase_isIdentifier (name : Text) :
    isIdentifier (toPascalCase name) = name.all isNameChar := by
  rw [toPascalCase, fixIdentifier_isIdentifier, all_flatMap_capitalized, all_splitWords]

theorem toCamelCase_isIdentifier (name : Text) :
    isIdentifier (toCamelCase name) = name.all isNameChar := by
  rw [toCamelCase, fixIdentifier_isIdentifier, ← all_splitWords]
  cases splitWords name with
  | nil => rfl
  | cons word words =>
    rw [List.all_append, all_flatMap_capitalized, List.flatten_cons, List.all_append]

theorem toUnitName_isIdentifier (name : Text) : isIdentifier (toUnitName name) = true := by
  rw [toUnitName, fixIdentifier_isIdentifier, List.all_map, List.all_eq_true]
  intro c _
  rw [Function.comp_apply]
  split_ifs with halnum
  · rw [isIdentifierChar_toLower, isIdentifierChar, halnum, Bool.true_or]
  · rfl

theorem unitName_usable (name : Text) : Usable (unitName name) := by
  rw [unitName]
  split_ifs with hscore
  · exact ⟨rfl, by decide⟩
  · exact ⟨toUnitName_isIdentifier name, fixIdentifier_notKeyword _⟩

end Uniorm.Gen
