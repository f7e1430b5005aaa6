import Uniorm.Ddl.Scanner
import Uniorm.Foundation.Letters
import Mathlib.Data.List.TakeWhile

/-! # The lexemes of a script

A text that ends with a `;` outside of quotes and comments is a sequence of
lexemes whatever stands behind it. `Piece` says which text a lexeme has and
what may follow it; the scanner's functions are then told by what they do at
the next lexeme.
-/
namespace Uniorm.Ddl

open Foundation Foundation.Scan Sql Builder

/-- The codes of the characters that begin a word. -/
theorem identStart_iff (c : Char) : identStart c = true ↔
    65 ≤ c.toNat ∧ c.toNat ≤ 90 ∨ 97 ≤ c.toNat ∧ c.toNat ≤ 122 ∨ c.toNat = 95 := by
  delta identStart Char.isAlpha Char.isUpper Char.isLower
  simp [UInt32.le_iff_toNat_le, Char.ext_iff, ← UInt32.toNat_inj, or_assoc]

theorem identChar_iff (c : Char) : identChar c = true ↔
    identStart c = true ∨ 48 ≤ c.toNat ∧ c.toNat ≤ 57 ∨ c.toNat = 36 := by
  simp [identChar, Char.isDigit, UInt32.le_iff_toNat_le, Char.ext_iff, ← UInt32.toNat_inj,
    or_assoc]

theorem identStart_toLower (c : Char) : identStart c.toLower = identStart c := by
  rw [Bool.eq_iff_iff, identStart_iff, identStart_iff, toNat_toLower]
  split_ifs <;> omega

theorem identChar_toLower (c : Char) : identChar c.toLower = identChar c := by
  rw [Bool.eq_iff_iff, identChar_iff, identChar_iff, identStart_iff, identStart_iff, toNat_toLower]
  split_ifs <;> omega

theorem identChar_of_identStart {c : Char} (h : identStart c = true) : identChar c = true :=
  (identChar_iff c).mpr (.inl h)

theorem identStart_of_isSpace {c : Char} (h : isSpace c = true) : identStart c = false := by
  simp only [isSpace, Bool.or_eq_true, beq_iff_eq] at h
  rcases h with ((((rfl | rfl) | rfl) | rfl) | rfl) | rfl <;> rfl

theorem identStart_of_quoteStart {c : Char} (h : quoteStart c = true) : identStart c = false := by
  simp only [quoteStart, Bool.or_eq_true, beq_iff_eq] at h
  rcases h with ((rfl | rfl) | rfl) | rfl <;> rfl

theorem isSpace_of_quoteStart {c : Char} (h : quoteStart c = true) : isSpace c = false := by
  simp only [quoteStart, Bool.or_eq_true, beq_iff_eq] at h
  rcases h with ((rfl | rfl) | rfl) | rfl <;> rfl

theorem ne_of_identStart {c d : Char} (h : identStart c = true) (hd : identStart d = false) :
    c ≠ d := by
  rintro rfl
  rw [hd] at h
  cases h

/-- A word of the script, or a keyword. -/
structure Word (w : Text) : Prop where
  start : w.head?.any identStart = true
  all : w.all identChar = true

def EndsWord (text : Text) : Prop := text.head?.any identChar = false

theorem wordOf_append {w text : Text} (hw : Word w) (h : EndsWord text) :
    wordOf (w ++ text) = w := by
  have hhead : (w ++ text).head?.any identStart = true := by
    cases w with
    | nil => cases hw.start
    | cons c cs => exact hw.start
  rw [wordOf, if_pos hhead, List.takeWhile_append_of_pos (List.all_eq_true.mp hw.all)]
  cases text with
  | nil => rw [List.takeWhile_nil, List.append_nil]
  | cons c cs =>
    have hc : identChar c = false := h
    rw [List.takeWhile_cons_of_neg (by rw [hc]; exact Bool.false_ne_true), List.append_nil]

theorem wordOf_of_not {text : Text} (h : text.head?.any identStart = false) : wordOf text = [] := by
  rw [wordOf, h]
  rfl

theorem foldLower_length (w : Text) : (foldLower w).length = w.length := List.length_map ..

theorem word_foldLower {w : Text} : Word (foldLower w) ↔ Word w := by
  have hstart : (foldLower w).head?.any identStart = w.head?.any identStart := by
    cases w with
    | nil => rfl
    | cons c cs => exact identStart_toLower c
  have hall : (foldLower w).all identChar = w.all identChar := by
    rw [foldLower, List.all_map]
    exact congrArg w.all (funext identChar_toLower)
  constructor
  · intro h
    exact ⟨hstart ▸ h.start, hall ▸ h.all⟩
  · intro h
    exact ⟨hstart.trans h.start, hall.trans h.all⟩

theorem startsKeyword_eq {word : Text} (hword : Word word) (text : Text) :
    startsKeyword word text = (foldLower (wordOf text) == foldLower word) := by
  rw [Bool.eq_iff_iff, startsKeyword, Bool.and_eq_true, Bool.and_eq_true, decide_eq_true_eq,
    beq_iff_eq, beq_iff_eq, Bool.not_eq_true']
  constructor
  · rintro ⟨⟨-, hfold⟩, hends⟩
    have htaken : Word (text.take word.length) :=
      word_foldLower.mp (hfold ▸ word_foldLower.mpr hword)
    have hof := wordOf_append htaken hends
    rw [List.take_append_drop] at hof
    rw [hof, hfold]
  · intro hfold
    have hof : Word (wordOf text) := word_foldLower.mp (hfold ▸ word_foldLower.mpr hword)
    have hlength : (wordOf text).length = word.length := by
      rw [← foldLower_length, hfold, foldLower_length]
    have hsplit : wordOf text = text.takeWhile identChar := by
      rw [wordOf]
      split_ifs with hstart
      · rfl
      · rw [wordOf, if_neg hstart] at hof
        cases hof.start
    have htake : text.take word.length = wordOf text := by
      rw [← hlength, hsplit]
      exact (List.prefix_iff_eq_take.mp (List.takeWhile_prefix _)).symm
    have hdrop : text.drop word.length = text.dropWhile identChar := by
      have hleft := @List.drop_left _ (text.takeWhile identChar) (text.dropWhile identChar)
      rwa [List.takeWhile_append_dropWhile, ← hsplit, hlength] at hleft
    refine ⟨⟨?_, htake ▸ hfold⟩, ?_⟩
    · rw [← hlength, hsplit]
      exact (List.takeWhile_prefix _).length_le
    · rw [hdrop]
      cases hrest : (text.dropWhile identChar).head? with
      | none => rfl
      | some c =>
        have hc := List.head?_dropWhile_not identChar text
        rw [hrest] at hc
        simpa using hc

inductive Lexeme where
  | word (w : Text)
  | quoted
  /-- A body between two equal markers. -/
  | body (tag : Text)
  /-- A `$` that starts no quoted body. -/
  | dollar
  | char (c : Char)
  deriving DecidableEq, Repr

namespace Lexeme

def wordText : Lexeme → Text
  | word w => w
  | _ => []

/-- A `$` stands here outside of words, quotes and comments. -/
def lone : Lexeme → Bool
  | body _ => true
  | dollar => true
  | _ => false

end Lexeme

inductive QuotedRun (quote : Char) : Text → Prop where
  | close : QuotedRun quote [quote]
  | doubled {t : Text} (h : QuotedRun quote t) : QuotedRun quote (quote :: quote :: t)
  | escaped {c : Char} {t : Text} (hquote : quote = '\'') (h : QuotedRun quote t) :
    QuotedRun quote ('\\' :: c :: t)
  | other {c : Char} {t : Text} (hc : c ≠ quote) (hescape : ¬ (c = '\\' ∧ quote = '\''))
    (h : QuotedRun quote t) : QuotedRun quote (c :: t)

inductive CommentRun : Text → Prop where
  | close : CommentRun ['*', '/']
  | other {c d : Char} {t : Text} (hclose : ¬ (c = '*' ∧ d = '/')) (h : CommentRun (d :: t)) :
    CommentRun (c :: d :: t)

/-- What opens and closes a body between dollars. -/
def marker (tag : Text) : Text := '$' :: (tag ++ ['$'])

/-- The scanner goes over the lexeme as it is: a `$` starts a body here, and the bytes of its marker
are still there when they are looked for. -/
def Lexeme.Sound [Dangling] : Lexeme → Prop
  | .body tag => Dangling.Kept (marker tag)
  | .dollar => False
  | _ => True

theorem Lexeme.sound_of_lone [Dangling] {l : Lexeme} (h : l.lone = false) : l.Sound := by
  cases l with
  | body => cases h
  | dollar => cases h
  | _ => trivial

instance [Dangling] : DecidablePred Lexeme.Sound
  | .body tag => inferInstanceAs (Decidable (Dangling.Kept (marker tag)))
  | .dollar => .isFalse id
  | .word _ => .isTrue trivial
  | .quoted => .isTrue trivial
  | .char _ => .isTrue trivial

structure Punctuation (c : Char) (text : Text) : Prop where
  space : isSpace c = false
  word : identStart c = false
  quote : quoteStart c = false
  line : lineComment (c :: text) = false
  block : blockComment (c :: text) = false

inductive Piece : Text → Lexeme → Text → Prop where
  | word {w text : Text} (hw : Word w) (hends : EndsWord text) : Piece w (.word w) text
  | quoted {quote : Char} {run text : Text} (hquote : quote ∈ ['\'', '"', '\x60'])
    (hrun : QuotedRun quote run) (hnext : text.head? ≠ some quote) :
    Piece (quote :: run) .quoted text
  | body {tag inner text : Text} (htag : tag.all isTagChar = true)
    (hfirst : ∀ a b, inner ++ marker tag = a ++ marker tag ++ b → b = []) :
    Piece (marker tag ++ inner ++ marker tag) (.body tag) text
  | dollar {tag text : Text} {c : Char} (htag : tag.all isTagChar = true)
    (hc : isTagChar c = false) (hne : c ≠ '$') : Piece ['$'] .dollar (tag ++ c :: text)
  | char {c : Char} {text : Text} (h : Punctuation c text) : Piece [c] (.char c) text

/-- A text that ends with a `;` of its own, and the lexemes in front of that `;`. -/
inductive Lexed : Text → List Lexeme → Prop where
  | semicolon : Lexed [';'] []
  | space {c : Char} {text : Text} {ls : List Lexeme} (hc : isSpace c = true) (h : Lexed text ls) :
    Lexed (c :: text) ls
  | line {opening inner text : Text} {ls : List Lexeme} (hopen : opening = ['#'] ∨ opening = ['-', '-'])
    (hinner : '\n' ∉ inner) (h : Lexed ('\n' :: text) ls) :
    Lexed (opening ++ inner ++ '\n' :: text) ls
  | block {inner text : Text} {ls : List Lexeme} (hinner : CommentRun inner) (h : Lexed text ls) :
    Lexed ('/' :: '*' :: (inner ++ text)) ls
  | lexeme {piece text : Text} {l : Lexeme} {ls : List Lexeme} (hpiece : Piece piece l text)
    (h : Lexed text ls) : Lexed (piece ++ text) (l :: ls)

theorem Lexed.ne_nil {text : Text} {ls : List Lexeme} (h : Lexed text ls) : text ≠ [] := by
  induction h with
  | semicolon => exact List.cons_ne_nil _ _
  | space => exact List.cons_ne_nil _ _
  | line => exact List.append_ne_nil_of_right_ne_nil _ (List.cons_ne_nil _ _)
  | block => exact List.cons_ne_nil _ _
  | lexeme _ _ ih => exact List.append_ne_nil_of_right_ne_nil _ ih

theorem Punctuation.append {c : Char} {text : Text} (h : Punctuation c text) (hne : text ≠ [])
    (r : Text) : Punctuation c (text ++ r) := by
  obtain ⟨d, ds, rfl⟩ := List.exists_cons_of_ne_nil hne
  refine ⟨h.space, h.word, h.quote, ?_, ?_⟩
  · have hline := h.line
    rw [List.cons_append]
    simp only [lineComment] at hline ⊢
    split at hline <;> simp_all
  · have hblock := h.block
    rw [List.cons_append]
    simp only [blockComment] at hblock ⊢
    split at hblock <;> simp_all

/-- A piece is one whatever stands behind the text that follows it. -/
theorem Piece.append {piece text : Text} {l : Lexeme} (h : Piece piece l text) (hne : text ≠ [])
    (r : Text) : Piece piece l (text ++ r) := by
  cases h with
  | word hw hends =>
    refine .word hw ?_
    obtain ⟨d, ds, rfl⟩ := List.exists_cons_of_ne_nil hne
    exact hends
  | quoted hquote hrun hnext =>
    refine .quoted hquote hrun ?_
    obtain ⟨d, ds, rfl⟩ := List.exists_cons_of_ne_nil hne
    exact hnext
  | body htag hfirst => exact .body htag hfirst
  | dollar htag hc hdollar =>
    rw [List.append_assoc, List.cons_append]
    exact .dollar htag hc hdollar
  | char h => exact .char (h.append hne r)

theorem QuotedRun.ne_nil {quote : Char} {run : Text} (h : QuotedRun quote run) : run ≠ [] := by
  cases h <;> exact List.cons_ne_nil _ _

theorem quotedLength_run {quote : Char} {run text : Text} (hquote : quote ≠ '\\')
    (hrun : QuotedRun quote run) (hnext : text.head? ≠ some quote) :
    quotedLength quote (run ++ text) = some run.length := by
  induction hrun with
  | close =>
    cases text with
    | nil => simp [quotedLength]
    | cons d ds =>
      have hd : d ≠ quote := fun h => hnext (by rw [h]; rfl)
      simp [quotedLength, hquote, hd]
  | doubled h ih => simp [quotedLength, hquote, ih]
  | escaped hq h ih =>
    subst hq
    simp [quotedLength, ih]
  | @other c t hc hescape h ih =>
    obtain ⟨d, ds, rfl⟩ := List.exists_cons_of_ne_nil h.ne_nil
    rw [List.cons_append] at ih
    simp [quotedLength, hc, hescape, ih]

theorem blockLength_run {inner : Text} (h : CommentRun inner) (text : Text) :
    blockLength (inner ++ text) = some inner.length := by
  induction h with
  | close => rfl
  | @other c d t hclose h ih =>
    rw [List.cons_append] at ih
    rw [List.cons_append, List.cons_append, blockLength, ih]
    · rfl
    · intro cs hc htail
      exact hclose ⟨hc, (List.cons.inj htail).1⟩

theorem isTagChar_dollar : isTagChar '$' = false := rfl

theorem takeWhile_tag {tag text : Text} {c : Char} (htag : tag.all isTagChar = true)
    (hc : isTagChar c = false) : (tag ++ c :: text).takeWhile isTagChar = tag := by
  rw [List.takeWhile_append_of_pos (List.all_eq_true.mp htag),
    List.takeWhile_cons_of_neg (by rw [hc]; exact Bool.false_ne_true), List.append_nil]

theorem breakOn_of_first {sep inner text : Text} (hsep : sep ≠ [])
    (hfirst : ∀ a b, inner ++ sep = a ++ sep ++ b → b = []) :
    breakOn sep (inner ++ sep ++ text) = some (inner, text) := by
  obtain ⟨r, hr⟩ := Option.isSome_iff_exists.mp (breakOn_isSome hsep inner text)
  have hsplit := breakOn_eq hr
  have hle : r.1.length ≤ inner.length := breakOn_first hr rfl
  -- what is found lies within the run and the marker behind it
  have hwithin : r.1 ++ sep <+: inner ++ sep := by
    refine List.prefix_of_prefix_length_le ⟨r.2, hsplit.symm⟩ ⟨text, rfl⟩ ?_
    rw [List.length_append, List.length_append]
    exact Nat.add_le_add_right hle _
  obtain ⟨b, hb⟩ := hwithin
  obtain rfl := hfirst r.1 b hb.symm
  rw [List.append_nil] at hb
  have hinner : r.1 = inner := List.append_cancel_right hb
  rw [hinner] at hsplit
  have htext : text = r.2 := List.append_cancel_left hsplit
  rw [hr, htext, ← hinner]

/-- What stands behind a `$`: a marker is closed there, or the tag ends otherwise. -/
theorem dollar_cases (text : Text) :
    (∃ tag t, '$' :: text = marker tag ++ t ∧ tag.all isTagChar = true) ∨
      (∃ tag c t, text = tag ++ c :: t ∧ tag.all isTagChar = true ∧ isTagChar c = false ∧ c ≠ '$') ∨
      text.all isTagChar = true := by
  have hsplit := List.takeWhile_append_dropWhile (p := isTagChar) (l := text)
  have htag : (text.takeWhile isTagChar).all isTagChar = true := List.all_takeWhile
  cases hrest : text.dropWhile isTagChar with
  | nil =>
    rw [hrest, List.append_nil] at hsplit
    exact .inr (.inr (hsplit ▸ htag))
  | cons d ds =>
    rw [hrest] at hsplit
    have hd : isTagChar d = false := by
      have hnot := List.head?_dropWhile_not isTagChar text
      rw [hrest] at hnot
      simpa using hnot
    by_cases hclosed : d = '$'
    · subst hclosed
      refine .inl ⟨_, ds, ?_, htag⟩
      rw [marker, List.cons_append, List.append_assoc, List.singleton_append, hsplit]
    · exact .inr (.inl ⟨_, d, ds, hsplit.symm, htag, hd, hclosed⟩)

theorem take_marker (tag text : Text) :
    (marker tag ++ text).tail = tag ++ '$' :: text ∧
      (marker tag ++ text).take (tag.length + 2) = marker tag ∧
      (marker tag ++ text).drop (tag.length + 2) = text := by
  have hlength : tag.length + 2 = (marker tag).length := by simp [marker]
  rw [hlength, List.take_left, List.drop_left]
  exact ⟨by simp [marker], rfl, rfl⟩

section Marker
variable [Dangling] {tag inner text : Text} (htag : tag.all isTagChar = true)
include htag

/-- Behind the marker of a quoted body its second place is looked for. -/
theorem dollarLength_marker (text : Text) : dollarLength (marker tag ++ text) =
    (Dangling.search (marker tag) text).elim (.error "unterminated quoted body".toList)
      fun r => .ok ((marker tag).length + r.1.length + (marker tag).length) := by
  obtain ⟨htail, htake, hdrop⟩ := take_marker tag text
  have hclosed : ((marker tag ++ text).drop (tag.length + 1)).head? = some '$' := by
    simp [marker]
  rw [dollarLength, htail, takeWhile_tag htag isTagChar_dollar]
  simp only [htake, hdrop, hclosed, ne_eq, not_true_eq_false, if_false]
  cases Dangling.search (marker tag) text <;> rfl

theorem dollarLength_body (hkept : Dangling.Kept (marker tag))
    (hfirst : ∀ a b, inner ++ marker tag = a ++ marker tag ++ b → b = []) :
    dollarLength (marker tag ++ inner ++ marker tag ++ text) =
      .ok (marker tag ++ inner ++ marker tag).length := by
  have hbreak : breakOn (marker tag) (inner ++ marker tag ++ text) = some (inner, text) :=
    breakOn_of_first (List.cons_ne_nil _ _) hfirst
  rw [List.append_assoc, List.append_assoc, ← List.append_assoc inner, dollarLength_marker htag,
    Dangling.search_of_kept hkept, hbreak]
  simp [Nat.add_assoc]

/-- A marker whose bytes spell no text is found nowhere. -/
theorem dollarLength_lost (hlost : Dangling.bytes (marker tag) = none) (text : Text) :
    dollarLength (marker tag ++ text) = .error "unterminated quoted body".toList := by
  rw [dollarLength_marker htag, Dangling.search, hlost]
  rfl

theorem dollarLength_stray {c : Char} (hc : isTagChar c = false) (hne : c ≠ '$') :
    dollarLength ('$' :: (tag ++ c :: text)) = .error "'$' starts no quoted body".toList := by
  rw [dollarLength, List.tail_cons, takeWhile_tag htag hc]
  simp [hne]

end Marker

def Lexeme.spellable : Lexeme → Bool
  | .word w => w.head?.any identStart && w.all identChar
  | .char c => !isSpace c && !identStart c && !quoteStart c && c != '#' && c != '-' && c != '/'
  | .body tag => tag.all isTagChar
  | _ => true

/-- Lexemes as a text, with a `;` at its end. -/
def spell : List Lexeme → Text
  | [] => [';']
  | .word w :: ls => w ++ ' ' :: spell ls
  | .char c :: ls => c :: spell ls
  | .quoted :: ls => '\'' :: '\'' :: ' ' :: spell ls
  | .body tag :: ls => marker tag ++ marker tag ++ ' ' :: spell ls
  | .dollar :: ls => '$' :: ' ' :: spell ls

theorem lexed_spell {ls : List Lexeme} (h : ∀ l ∈ ls, l.spellable = true) : Lexed (spell ls) ls := by
  induction ls with
  | nil => exact .semicolon
  | cons l ls ih =>
    obtain ⟨hl, hls⟩ := List.forall_mem_cons.mp h
    have hspace : Lexed (' ' :: spell ls) ls := .space rfl (ih hls)
    cases l with
    | word w =>
      obtain ⟨hstart, hall⟩ := Bool.and_eq_true_iff.mp hl
      exact .lexeme (.word ⟨hstart, hall⟩ rfl) hspace
    | quoted =>
      exact .lexeme (.quoted List.mem_cons_self .close (by simp)) hspace
    | body tag =>
      have hpiece : Piece (marker tag ++ [] ++ marker tag) (.body tag) (' ' :: spell ls) := by
        refine .body hl fun a b hab => ?_
        have hlength := congrArg List.length hab
        simp only [List.length_append, List.length_nil] at hlength
        exact List.eq_nil_of_length_eq_zero (by omega)
      rw [List.append_nil] at hpiece
      exact .lexeme hpiece hspace
    | dollar =>
      have hpiece : Piece ['$'] .dollar ([] ++ ' ' :: spell ls) := .dollar rfl rfl (by decide)
      exact .lexeme hpiece hspace
    | char c =>
      simp only [Lexeme.spellable, Bool.and_eq_true, Bool.not_eq_true', bne_iff_ne] at hl
      obtain ⟨⟨⟨⟨⟨hblank, hword⟩, hquote⟩, hhash⟩, hdash⟩, hslash⟩ := hl
      refine .lexeme (.char ⟨hblank, hword, hquote, ?_, ?_⟩) (ih hls)
      · unfold lineComment
        split <;> simp_all
      · unfold blockComment
        split <;> simp_all

end Uniorm.Ddl
