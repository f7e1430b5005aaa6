import Mathlib.Data.List.Basic
import Mathlib.Tactic.Common

/-! # Tokens of SQL conditions and assignments

A one-pass reader over characters: words, delimited identifiers with doubled
closing quotes, placeholders, comparison operators, parentheses and commas.
A blank ends every token, so texts joined at a blank are read piece by piece
(`lex_append_blank`). Binding gives the placeholders of a token list their
values from left to right.
-/
namespace Uniorm.Sql

abbrev Text := List Char

inductive CompOp where
  | eq | ne | lt | le | gt | ge
  deriving DecidableEq, Repr

inductive Token where
  | word (w : Text)
  | quoted (name : Text)
  | mark
  | op (o : CompOp)
  | lparen
  | rparen
  | comma
  | and
  | or
  | not
  deriving DecidableEq, Repr

/-- The two delimiters in use for identifiers. -/
inductive Quote where
  | double
  | backtick
  deriving DecidableEq, Repr

def Quote.char : Quote → Char
  | .double => '"'
  | .backtick => '`'

def isSpace (c : Char) : Bool :=
  c == ' ' || c == '\t' || c == '\n' || c == '\r' || c == '\x0b' || c == '\x0c'

def isWordChar (c : Char) : Bool := c.isAlphanum || c == '_' || c == '.'

/-- Keywords are recognized whatever their case. -/
def wordToken (w : Text) : Token :=
  if w.map Char.toLower = ['a', 'n', 'd'] then .and
  else if w.map Char.toLower = ['o', 'r'] then .or
  else if w.map Char.toLower = ['n', 'o', 't'] then .not
  else .word w

/-- What the reader is in the middle of. -/
inductive Mode where
  | gap
  | word (w : Text)
  | quoted (name : Text)
  | closing (name : Text)
  | less
  | greater
  | bang
  deriving DecidableEq, Repr

def startToken (q : Quote) (c : Char) : Option (List Token × Mode) :=
  if isSpace c then some ([], .gap)
  else if isWordChar c then some ([], .word [c])
  else if c = q.char then some ([], .quoted [])
  else if c = '?' then some ([.mark], .gap)
  else if c = '=' then some ([.op .eq], .gap)
  else if c = '(' then some ([.lparen], .gap)
  else if c = ')' then some ([.rparen], .gap)
  else if c = ',' then some ([.comma], .gap)
  else if c = '<' then some ([], .less)
  else if c = '>' then some ([], .greater)
  else if c = '!' then some ([], .bang)
  else none

/-- A finished token, followed by the token that `c` starts. -/
def closeToken (q : Quote) (t : Token) (c : Char) : Option (List Token × Mode) :=
  (startToken q c).map fun p => (t :: p.1, p.2)

def advance (q : Quote) : Mode → Char → Option (List Token × Mode)
  | .gap, c => startToken q c
  | .word w, c => if isWordChar c then some ([], .word (w ++ [c])) else closeToken q (wordToken w) c
  | .quoted name, c =>
    if c = q.char then some ([], .closing name) else some ([], .quoted (name ++ [c]))
  | .closing name, c =>
    if c = q.char then some ([], .quoted (name ++ [c])) else closeToken q (.quoted name) c
  | .less, c =>
    if c = '=' then some ([.op .le], .gap)
    else if c = '>' then some ([.op .ne], .gap) else closeToken q (.op .lt) c
  | .greater, c => if c = '=' then some ([.op .ge], .gap) else closeToken q (.op .gt) c
  | .bang, c => if c = '=' then some ([.op .ne], .gap) else none

/-- The end of the text. A quote left open is an error. -/
def finish : Mode → Option (List Token)
  | .gap => some []
  | .word w => some [wordToken w]
  | .quoted _ => none
  | .closing name => some [.quoted name]
  | .less => some [.op .lt]
  | .greater => some [.op .gt]
  | .bang => none

def lexFrom (q : Quote) : Mode → Text → Option (List Token)
  | m, [] => finish m
  | m, c :: cs => (advance q m c).bind fun p => (lexFrom q p.2 cs).map (p.1 ++ ·)

def lex (q : Quote) (s : Text) : Option (List Token) := lexFrom q .gap s

theorem startToken_blank (q : Quote) : startToken q ' ' = some ([], .gap) := rfl

theorem Quote.char_ne_blank (q : Quote) : ' ' ≠ q.char := by cases q <;> decide

/-- A blank ends the token that the end of the text would have ended. -/
theorem advance_blank {q : Quote} {m : Mode} {a : List Token} (h : finish m = some a) :
    advance q m ' ' = some (a, .gap) := by
  cases m with
  | gap =>
    obtain rfl := Option.some.inj h
    exact startToken_blank q
  | word w =>
    obtain rfl := Option.some.inj h
    simp [advance, closeToken, startToken_blank, show isWordChar ' ' = false by decide]
  | quoted name => cases h
  | closing name =>
    obtain rfl := Option.some.inj h
    simp [advance, closeToken, startToken_blank, q.char_ne_blank]
  | less =>
    obtain rfl := Option.some.inj h
    rfl
  | greater =>
    obtain rfl := Option.some.inj h
    rfl
  | bang => cases h

theorem lexFrom_append_blank {q : Quote} {s t : Text} {m : Mode} {a : List Token}
    (h : lexFrom q m s = some a) :
    lexFrom q m (s ++ ' ' :: t) = (lex q t).map (a ++ ·) := by
  induction s generalizing m a with
  | nil =>
    rw [List.nil_append, lexFrom, advance_blank h]
    rfl
  | cons c s ih =>
    rw [lexFrom] at h
    obtain ⟨p, hp, hrest⟩ := Option.bind_eq_some_iff.mp h
    obtain ⟨b, hb, rfl⟩ := Option.map_eq_some_iff.mp hrest
    rw [List.cons_append, lexFrom, hp, Option.bind_some, ih hb, Option.map_map]
    congr 1
    funext d
    simp

/-- Texts joined at a blank are read piece by piece. -/
theorem lex_append_blank {q : Quote} {s t : Text} {a b : List Token} (hs : lex q s = some a)
    (ht : lex q t = some b) : lex q (s ++ ' ' :: t) = some (a ++ b) := by
  rw [lex, lexFrom_append_blank hs, ht]
  rfl

def escaped (q : Quote) (name : Text) : Text :=
  name.flatMap fun c => if c = q.char then [c, c] else [c]

theorem escaped_cons (q : Quote) (c : Char) (name : Text) : escaped q (c :: name) =
    if c = q.char then c :: c :: escaped q name else c :: escaped q name := by
  rw [escaped, List.flatMap_cons]
  split_ifs <;> rfl

def delimited (q : Quote) (name : Text) : Text := q.char :: escaped q name ++ [q.char]

theorem lexFrom_quoted (q : Quote) (seen name : Text) :
    lexFrom q (.quoted seen) (escaped q name ++ [q.char]) = some [.quoted (seen ++ name)] := by
  induction name generalizing seen with
  | nil => simp [escaped, lexFrom, advance, finish]
  | cons c name ih =>
    by_cases hc : c = q.char
    · simp [escaped_cons, hc, lexFrom, advance, ih, Function.comp_def]
    · simp [escaped_cons, hc, lexFrom, advance, ih]

/-- A delimited identifier is read back as one token, whatever its characters are. -/
theorem lex_delimited (q : Quote) (name : Text) : lex q (delimited q name) = some [.quoted name] := by
  have hstart : startToken q q.char = some ([], .quoted []) := by cases q <;> rfl
  rw [lex, delimited, List.cons_append, lexFrom, advance, hstart, Option.bind_some,
    lexFrom_quoted]
  rfl

@[simp] theorem lex_nil (q : Quote) : lex q [] = some [] := rfl

@[simp] theorem lex_blank (q : Quote) (t : Text) : lex q (' ' :: t) = lex q t := by
  simp [lex, lexFrom, advance, startToken_blank]

@[simp] theorem lex_mark (q : Quote) (t : Text) : lex q ('?' :: t) = (lex q t).map (.mark :: ·) := by
  cases q <;> rfl

@[simp] theorem lex_eq (q : Quote) (t : Text) : lex q ('=' :: t) = (lex q t).map (.op .eq :: ·) := by
  cases q <;> rfl

@[simp] theorem lex_lparen (q : Quote) (t : Text) :
    lex q ('(' :: t) = (lex q t).map (.lparen :: ·) := by
  cases q <;> rfl

@[simp] theorem lex_rparen (q : Quote) (t : Text) :
    lex q (')' :: t) = (lex q t).map (.rparen :: ·) := by
  cases q <;> rfl

@[simp] theorem lex_comma (q : Quote) (t : Text) :
    lex q (',' :: t) = (lex q t).map (.comma :: ·) := by
  cases q <;> rfl

/-- A token that the next character ends is followed by what the rest is read as. -/
theorem lexFrom_of_close {q : Quote} {m : Mode} {token : Token} (hend : finish m = some [token])
    {t : Text} (hclose : ∀ c ∈ t.head?, advance q m c = closeToken q token c) :
    lexFrom q m t = (lex q t).map (token :: ·) := by
  cases t with
  | nil =>
    rw [lexFrom, hend]
    rfl
  | cons c t =>
    rw [lexFrom, hclose c rfl, closeToken, lex, lexFrom, advance]
    cases startToken q c with
    | none => rfl
    | some p => simp [Function.comp_def]

theorem lexFrom_quoted_append (q : Quote) (seen name t : Text) :
    lexFrom q (.quoted seen) (escaped q name ++ q.char :: t) =
      lexFrom q (.closing (seen ++ name)) t := by
  induction name generalizing seen with
  | nil => simp [escaped, lexFrom, advance]
  | cons c name ih =>
    by_cases hc : c = q.char
    · simp [escaped_cons, hc, lexFrom, advance, ih, Function.comp_def]
    · simp [escaped_cons, hc, lexFrom, advance, ih]

/-- A delimited identifier ends before anything but another delimiter. -/
theorem lex_delimited_append (q : Quote) (name : Text) {t : Text}
    (ht : ∀ c ∈ t.head?, c ≠ q.char) :
    lex q (delimited q name ++ t) = (lex q t).map (.quoted name :: ·) := by
  have hstart : startToken q q.char = some ([], .quoted []) := by cases q <;> rfl
  have hread : lex q (delimited q name ++ t) = lexFrom q (.closing name) t := by
    rw [lex, delimited, List.cons_append, List.cons_append, lexFrom, advance, hstart,
      Option.bind_some, List.append_assoc, List.singleton_append, lexFrom_quoted_append]
    simp
  rw [hread]
  apply lexFrom_of_close rfl
  intro c hc
  rw [advance, if_neg (ht c hc)]

theorem lexFrom_word_append (q : Quote) (seen w t : Text) (hw : ∀ c ∈ w, isWordChar c = true) :
    lexFrom q (.word seen) (w ++ t) = lexFrom q (.word (seen ++ w)) t := by
  induction w generalizing seen with
  | nil => simp
  | cons c w ih =>
    have hc := hw c List.mem_cons_self
    have hrest := ih (seen ++ [c]) fun d hd => hw d (List.mem_cons_of_mem _ hd)
    rw [List.cons_append, lexFrom, advance, if_pos hc, Option.bind_some, hrest]
    simp

theorem lex_word_cons (q : Quote) {c : Char} (hc : isWordChar c = true) (s : Text) :
    lex q (c :: s) = lexFrom q (.word [c]) s := by
  have hspace : isSpace c = false := by
    by_contra hs
    simp only [isSpace, Bool.not_eq_false, Bool.or_eq_true, beq_iff_eq] at hs
    obtain (((((rfl | rfl) | rfl) | rfl) | rfl) | rfl) := hs <;> exact absurd hc (by decide)
  rw [lex, lexFrom, advance, startToken, hspace, if_neg Bool.false_ne_true, if_pos hc,
    Option.bind_some]
  simp

/-- So does a word before anything that is not part of one. -/
theorem lex_word_append (q : Quote) {c : Char} {w t : Text}
    (hw : ∀ d ∈ c :: w, isWordChar d = true) (ht : ∀ d ∈ t.head?, isWordChar d = false) :
    lex q (c :: w ++ t) = (lex q t).map (wordToken (c :: w) :: ·) := by
  have hread : lex q (c :: w ++ t) = lexFrom q (.word (c :: w)) t := by
    rw [List.cons_append, lex_word_cons q (hw c List.mem_cons_self),
      lexFrom_word_append q [c] w t fun d hd => hw d (List.mem_cons_of_mem _ hd)]
    rfl
  rw [hread]
  apply lexFrom_of_close rfl
  intro d hd
  rw [advance, if_neg (by simp [ht d hd])]

/-- A piece of text that is read as given tokens in front of every text that meets `ok`. -/
def ReadsAs (q : Quote) (ok : Text → Prop) (s : Text) (a : List Token) : Prop :=
  ∀ t, ok t → lex q (s ++ t) = (lex q t).map (a ++ ·)

namespace ReadsAs
variable {q : Quote} {ok ok' : Text → Prop} {s s' : Text} {a a' : List Token}

theorem append (h : ReadsAs q ok s a) (h' : ReadsAs q ok' s' a') (hok : ∀ t, ok' t → ok (s' ++ t)) :
    ReadsAs q ok' (s ++ s') (a ++ a') := by
  intro t ht
  rw [List.append_assoc, h _ (hok t ht), h' t ht, Option.map_map]
  congr 1
  funext b
  simp

theorem nil : ReadsAs q ok [] [] := by
  intro t _
  simp

theorem lex_eq (h : ReadsAs q ok s a) (hnil : ok []) : lex q s = some a := by
  have hs := h [] hnil
  simpa using hs

/-- Pieces with a separator between them. -/
theorem intercalate {α : Type*} {sep : Text} {b : List Token} {text : α → Text}
    {tokens : α → List Token} (hsep : ReadsAs q (fun _ => True) sep b) (hend : ∀ t, ok (sep ++ t))
    {l : List α} (hl : ∀ x ∈ l, ReadsAs q ok (text x) (tokens x)) :
    ReadsAs q ok (sep.intercalate (l.map text)) (b.intercalate (l.map tokens)) := by
  induction l with
  | nil => exact nil
  | cons x l ih =>
    have hx := hl x List.mem_cons_self
    have hrest := ih fun y hy => hl y (List.mem_cons_of_mem _ hy)
    cases l with
    | nil => simpa using hx
    | cons y l =>
      have hsplit : sep.intercalate ((x :: y :: l).map text) =
          text x ++ (sep ++ sep.intercalate ((y :: l).map text)) := by simp [List.intercalate]
      have htokens : b.intercalate ((x :: y :: l).map tokens) =
          tokens x ++ (b ++ b.intercalate ((y :: l).map tokens)) := by simp [List.intercalate]
      rw [hsplit, htokens]
      apply hx.append (hsep.append hrest fun _ _ => trivial)
      intro t _
      rw [List.append_assoc]
      exact hend _

end ReadsAs

/-- The number of placeholders. -/
def marks (ts : List Token) : ℕ := ts.count .mark

/-- Each placeholder with the value bound to it, the i-th value to the i-th placeholder. -/
def bindMarks {V : Type*} : List Token → List V → List (Token × Option V)
  | [], _ => []
  | .mark :: ts, v :: vs => (.mark, some v) :: bindMarks ts vs
  | t :: ts, vs => (t, none) :: bindMarks ts vs

@[simp] theorem marks_nil : marks [] = 0 := rfl

@[simp] theorem marks_append (a b : List Token) : marks (a ++ b) = marks a + marks b :=
  List.count_append

theorem bindMarks_cons_of_ne {V : Type*} {t : Token} (ht : t ≠ .mark) (ts : List Token)
    (vs : List V) : bindMarks (t :: ts) vs = (t, none) :: bindMarks ts vs := by
  cases t <;> first | rfl | exact absurd rfl ht

/-- Values counted off for a first piece leave the rest to the second. -/
theorem bindMarks_append {V : Type*} (a b : List Token) (va vb : List V)
    (h : va.length = marks a) :
    bindMarks (a ++ b) (va ++ vb) = bindMarks a va ++ bindMarks b vb := by
  induction a generalizing va with
  | nil =>
    obtain rfl := List.eq_nil_of_length_eq_zero h
    rfl
  | cons t a ih =>
    by_cases ht : t = .mark
    · subst ht
      cases va with
      | nil => simp [marks] at h
      | cons v va =>
        have hlen : va.length = marks a := by simpa [marks] using h
        rw [List.cons_append, List.cons_append, bindMarks, ih va hlen]
        rfl
    · have hlen : va.length = marks a := by
        rw [h, marks, marks, List.count_cons_of_ne ht]
      rw [List.cons_append, bindMarks_cons_of_ne ht, ih va hlen, bindMarks_cons_of_ne ht]
      rfl

end Uniorm.Sql
