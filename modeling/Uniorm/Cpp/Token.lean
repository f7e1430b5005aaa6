import Mathlib.Data.List.Basic
import Mathlib.Tactic.Common

/-! # Words and string literals of C++

What a name in a source file has to look like, and how an ordinary string
literal is read: escapes are decoded, a spliced line is taken out, and a line
that ends before the closing quote ends the reading.
-/
namespace Uniorm.Cpp

def isIdentifierChar (c : Char) : Bool := c.isAlphanum || c == '_'

/-- `[A-Za-z_][A-Za-z0-9_]*`. -/
def isIdentifier : List Char → Bool
  | [] => false
  | c :: cs => (c.isAlpha || c == '_') && cs.all isIdentifierChar

def keywords : List (List Char) :=
  ["alignas", "alignof", "and", "and_eq", "asm", "auto", "bitand", "bitor", "bool", "break",
   "case", "catch", "char", "char8_t", "char16_t", "char32_t", "class", "compl", "concept",
   "const", "consteval", "constexpr", "constinit", "const_cast", "continue", "co_await",
   "co_return", "co_yield", "decltype", "default", "delete", "do", "double", "dynamic_cast",
   "else", "enum", "explicit", "export", "extern", "false", "float", "for", "friend", "goto", "if",
   "inline", "int", "long", "mutable", "namespace", "new", "noexcept", "not", "not_eq", "nullptr",
   "operator", "or", "or_eq", "private", "protected", "public", "register", "reinterpret_cast",
   "requires", "return", "short", "signed", "sizeof", "static", "static_assert", "static_cast",
   "struct", "switch", "template", "this", "thread_local", "throw", "true", "try", "typedef",
   "typeid", "typename", "union", "unsigned", "using", "virtual", "void", "volatile", "wchar_t",
   "while", "xor", "xor_eq"].map String.toList

structure Usable (name : List Char) : Prop where
  identifier : isIdentifier name = true
  notKeyword : name ∉ keywords

theorem isIdentifierChar_iff (c : Char) : isIdentifierChar c = true ↔
    65 ≤ c.toNat ∧ c.toNat ≤ 90 ∨ 97 ≤ c.toNat ∧ c.toNat ≤ 122 ∨ 48 ≤ c.toNat ∧ c.toNat ≤ 57 ∨
      c.toNat = 95 := by
  delta isIdentifierChar Char.isAlphanum Char.isAlpha Char.isUpper Char.isLower
  simp [Char.isDigit, UInt32.le_iff_toNat_le, Char.ext_iff, ← UInt32.toNat_inj, or_assoc]

theorem isIdentifierChar_toLower (c : Char) : isIdentifierChar c.toLower = isIdentifierChar c := by
  rw [Bool.eq_iff_iff, isIdentifierChar_iff, isIdentifierChar_iff]
  delta Char.toLower
  split
  · rename_i hupper
    have hlow := UInt32.le_iff_toNat_le.mp hupper.1
    have hhigh := UInt32.le_iff_toNat_le.mp hupper.2
    simp only [← Char.toNat_val, UInt32.toNat_add]
    simp at hlow hhigh ⊢
    omega
  · rfl

theorem isIdentifierChar_toUpper (c : Char) : isIdentifierChar c.toUpper = isIdentifierChar c := by
  rw [Bool.eq_iff_iff, isIdentifierChar_iff, isIdentifierChar_iff]
  delta Char.toUpper
  split
  · rename_i hlower
    have hlow := UInt32.le_iff_toNat_le.mp hlower.1
    have hhigh := UInt32.le_iff_toNat_le.mp hlower.2
    simp only [← Char.toNat_val, UInt32.toNat_add]
    simp at hlow hhigh ⊢
    omega
  · rfl

theorem isIdentifier_cons {c : Char} {cs : List Char} (hdigit : c.isDigit = false) :
    isIdentifier (c :: cs) = (c :: cs).all isIdentifierChar := by
  simp [isIdentifier, isIdentifierChar, Char.isAlphanum, hdigit]

theorem all_of_isIdentifier {name : List Char} (h : isIdentifier name = true) :
    name.all isIdentifierChar = true := by
  cases name with
  | nil => rfl
  | cons c cs =>
    rw [isIdentifier, Bool.and_eq_true] at h
    rw [List.all_cons, h.2, Bool.and_true, isIdentifierChar, Char.isAlphanum]
    rcases Bool.or_eq_true _ _ ▸ h.1 with halpha | hscore
    · rw [halpha]
      rfl
    · rw [hscore, Bool.or_true]

theorem isIdentifier_append {name more : List Char} (h : isIdentifier name = true) :
    isIdentifier (name ++ more) = more.all isIdentifierChar := by
  cases name with
  | nil => cases h
  | cons c cs =>
    rw [isIdentifier, Bool.and_eq_true] at h
    rw [List.cons_append, isIdentifier, h.1, Bool.true_and, List.all_append, h.2, Bool.true_and]

theorem not_keyword_of_getLast? {name : List Char} {c : Char} (h : name.getLast? = some c)
    (hc : c = '_' ∨ c.isDigit = true) : name ∉ keywords := by
  have hlast : ∀ k ∈ keywords,
      (k.getLast?.all fun c => c != '_' && !c.isDigit) = true := by decide
  intro hmem
  have hone := hlast name hmem
  rw [h] at hone
  rcases hc with rfl | hdigit
  · exact absurd hone (by decide)
  · simp [hdigit] at hone

def simpleEscape : Char → Option Char
  | '\'' => some '\''
  | '"' => some '"'
  | '?' => some '?'
  | '\\' => some '\\'
  | 'a' => some '\x07'
  | 'b' => some '\x08'
  | 'f' => some '\x0c'
  | 'n' => some '\n'
  | 'r' => some '\r'
  | 't' => some '\t'
  | 'v' => some '\x0b'
  | _ => none

def isOctal (c : Char) : Bool := '0' ≤ c && c ≤ '7'

def isHex (c : Char) : Bool := c.isDigit || ('a' ≤ c && c ≤ 'f') || ('A' ≤ c && c ≤ 'F')

def digitValue (c : Char) : ℕ :=
  if c.isDigit then c.toNat - '0'.toNat else c.toLower.toNat - 'a'.toNat + 10

def coded (base : ℕ) (digits : List Char) : Char :=
  Char.ofNat (digits.foldl (fun n c => n * base + digitValue c) 0)

def readUniversal (n : ℕ) (cs : List Char) : Option (List Char × List Char) :=
  if n ≤ cs.length ∧ (cs.take n).all isHex then some ([coded 16 (cs.take n)], cs.drop n) else none

/-- What stands behind a backslash: a spliced line stands for nothing. -/
def readEscape : List Char → Option (List Char × List Char)
  | [] => none
  | c :: cs =>
    match simpleEscape c with
    | some v => some ([v], cs)
    | none =>
      if c = '\n' ∨ c = '\r' then some ([], cs)
      else if isOctal c then
        let digits := (cs.take 2).takeWhile isOctal
        some ([coded 8 (c :: digits)], cs.drop digits.length)
      else if c = 'x' ∧ cs.takeWhile isHex ≠ [] then
        some ([coded 16 (cs.takeWhile isHex)], cs.dropWhile isHex)
      else if c = 'u' then readUniversal 4 cs
      else if c = 'U' then readUniversal 8 cs
      else none

/-- An escape stands for at most one character and is made of one or more. -/
theorem readEscape_length {cs : List Char} {r : List Char × List Char}
    (h : readEscape cs = some r) : r.1.length ≤ 1 ∧ r.2.length < cs.length := by
  cases cs with
  | nil => cases h
  | cons c cs =>
    have huniversal : ∀ n, readUniversal n cs = some r →
        r.1.length ≤ 1 ∧ r.2.length < (c :: cs).length := by
      intro n hn
      rw [readUniversal] at hn
      split_ifs at hn
      obtain rfl := Option.some.inj hn
      refine ⟨Nat.le_refl 1, ?_⟩
      simp only [List.length_drop, List.length_cons]
      omega
    rw [readEscape] at h
    split at h
    · obtain rfl := Option.some.inj h
      simp
    · split_ifs at h with hline hoctal hhex hshort hlong
      · obtain rfl := Option.some.inj h
        simp
      · obtain rfl := Option.some.inj h
        refine ⟨Nat.le_refl 1, ?_⟩
        simp only [List.length_drop, List.length_cons]
        omega
      · obtain rfl := Option.some.inj h
        have hdrop := (List.dropWhile_suffix isHex : cs.dropWhile isHex <:+ cs).length_le
        refine ⟨Nat.le_refl 1, ?_⟩
        simp only [List.length_cons]
        omega
      · exact huniversal 4 h
      · exact huniversal 8 h

/-- A literal behind its first quote: its value and what follows the quote that closes it. -/
def readBody : List Char → Option (List Char × List Char)
  | [] => none
  | c :: cs =>
    if c = '"' then some ([], cs)
    else if c = '\n' ∨ c = '\r' then none
    else if c = '\\' then
      match _h : readEscape cs with
      | none => none
      | some r => (readBody r.2).map fun p => (r.1 ++ p.1, p.2)
    else (readBody cs).map fun p => (c :: p.1, p.2)
termination_by cs => cs.length
decreasing_by
  · have hlen := (readEscape_length _h).2
    simp only [List.length_cons]
    omega
  · simp

def readLiteral : List Char → Option (List Char × List Char)
  | '"' :: cs => readBody cs
  | _ => none

def isLiteralChar (c : Char) : Bool := c != '"' && c != '\n' && c != '\r' && c != '\\'

/-- A value is not longer than its text. -/
theorem readBody_length {cs : List Char} {r : List Char × List Char} (h : readBody cs = some r) :
    r.1.length + r.2.length < cs.length := by
  induction hn : cs.length using Nat.strongRecOn generalizing cs r with
  | _ n ih =>
    subst hn
    cases cs with
    | nil => simp [readBody] at h
    | cons c cs =>
      rw [readBody] at h
      split_ifs at h with hquote hline hslash
      · obtain rfl := Option.some.inj h
        simp
      · split at h
        · cases h
        · rename_i e he
          obtain ⟨p, hp, rfl⟩ := Option.map_eq_some_iff.mp h
          have hescape := readEscape_length he
          have hmore := ih e.2.length (by simp only [List.length_cons]; omega) hp rfl
          simp only [List.length_append, List.length_cons]
          omega
      · obtain ⟨p, hp, rfl⟩ := Option.map_eq_some_iff.mp h
        have hmore := ih cs.length (by simp) hp rfl
        simp only [List.length_cons]
        omega

/-- A text between quotes is read as itself exactly when every character stands for itself. -/
theorem readLiteral_eq_iff {text rest : List Char} :
    readLiteral ('"' :: (text ++ '"' :: rest)) = some (text, rest) ↔
      text.all isLiteralChar = true := by
  rw [readLiteral]
  induction text with
  | nil => simp [readBody]
  | cons c cs ih =>
    rw [List.cons_append, readBody, List.all_cons, Bool.and_eq_true, ← ih]
    split_ifs with hquote hline hslash
    · simp [isLiteralChar, hquote]
    · rcases hline with rfl | rfl <;> simp [isLiteralChar]
    · have hlit : isLiteralChar c = false := by rw [hslash]; rfl
      rw [hlit]
      constructor
      · intro h
        split at h
        · cases h
        · rename_i e he
          obtain ⟨p, hp, hpair⟩ := Option.map_eq_some_iff.mp h
          have hescape := readEscape_length he
          have hbody := readBody_length hp
          have hvalue := congrArg (fun q => q.1.length) hpair
          have hrest := congrArg (fun q => q.2.length) hpair
          simp only [List.length_append, List.length_cons] at hescape hvalue hrest
          omega
      · rintro ⟨hfalse, _⟩
        cases hfalse
    · have hlit : isLiteralChar c = true := by
        rw [not_or] at hline
        simp [isLiteralChar, hquote, hline, hslash]
      rw [hlit]
      simp [Option.map_eq_some_iff, Prod.ext_iff]

end Uniorm.Cpp
