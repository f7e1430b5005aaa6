import Uniorm.Libpq.SqlText

/-! # The lexical rules of PostgreSQL and the rewriting

The server's rules for what a `?` may stand inside of: comments, quoted runs,
escape strings and dollar-quoted bodies, with what opens each of them and what
closes it. A reading goes from piece to piece; it knows whether the place it has
come to is inside a word, for a word goes on with a dollar and no escape string
begins in one. The rewriting reads the same pieces up to the first place where
it takes a dollar or an E for what it is not.
-/
namespace Uniorm.Libpq

open Foundation Sql

namespace Lexical

def isIdentifierChar (c : Char) : Bool :=
  c.isAlpha || c.isDigit || c == '_' || decide (0x80 ≤ c.toNat)

/-- What a dollar-quoted body may be tagged with. -/
structure IsTag (tag : Text) : Prop where
  chars : ∀ c ∈ tag, isIdentifierChar c = true
  first : ∀ c ∈ tag.head?, c.isDigit = false

inductive Construct where
  | lineComment
  | blockComment
  | quoted (quote : Char)
  | escapeString (e : Char)
  | dollarQuoted (tag : Text)

def Construct.opening : Construct → Text
  | lineComment => ['-', '-']
  | blockComment => ['/', '*']
  | quoted quote => [quote]
  | escapeString e => [e, '\'']
  | dollarQuoted tag => '$' :: tag ++ ['$']

/-- A construct opens at the front of a text; `inWord` says that a word stands in front of it. -/
inductive Opens : (inWord : Bool) → Text → Construct → Text → Prop where
  | lineComment (w : Bool) (t : Text) : Opens w ('-' :: '-' :: t) .lineComment t
  | blockComment (w : Bool) (t : Text) : Opens w ('/' :: '*' :: t) .blockComment t
  | single (w : Bool) (t : Text) : Opens w ('\'' :: t) (.quoted '\'') t
  | double (w : Bool) (t : Text) : Opens w ('"' :: t) (.quoted '"') t
  | escapeString {e : Char} (he : e = 'e' ∨ e = 'E') (t : Text) :
    Opens false (e :: '\'' :: t) (.escapeString e) t
  | dollarQuoted {tag : Text} (htag : IsTag tag) (t : Text) :
    Opens false ('$' :: (tag ++ '$' :: t)) (.dollarQuoted tag) t

/-- A text that closes as many comments as are open, the last of them with its last characters. -/
inductive Nested : ℕ → Text → Prop where
  | last : Nested 1 ['*', '/']
  | close {n : ℕ} {t : Text} (h : Nested (n + 1) t) : Nested (n + 2) ('*' :: '/' :: t)
  | reopen {n : ℕ} {t : Text} (h : Nested (n + 2) t) : Nested (n + 1) ('/' :: '*' :: t)
  | other {n : ℕ} {c d : Char} {t : Text} (hopen : ¬ (c = '/' ∧ d = '*'))
    (hclose : ¬ (c = '*' ∧ d = '/')) (h : Nested n (d :: t)) : Nested n (c :: d :: t)

inductive QuotedRun (quote : Char) (escapes : Bool) : Text → Prop where
  | close : QuotedRun quote escapes [quote]
  | doubled {t : Text} (h : QuotedRun quote escapes t) :
    QuotedRun quote escapes (quote :: quote :: t)
  | backslash {c : Char} {t : Text} (he : escapes = true) (h : QuotedRun quote escapes t) :
    QuotedRun quote escapes ('\\' :: c :: t)
  | other {c : Char} {t : Text} (hc : c ≠ quote) (he : ¬ (escapes = true ∧ c = '\\'))
    (h : QuotedRun quote escapes t) : QuotedRun quote escapes (c :: t)

/-- What runs from behind the opening of a construct to its end, before the text that follows. -/
def Construct.Closed (k : Construct) (body rest : Text) : Prop :=
  match k with
  | lineComment => '\n' ∉ body ∧ ∀ c ∈ rest.head?, c = '\n'
  | blockComment => Nested 1 body
  | quoted quote => QuotedRun quote false body ∧ rest.head? ≠ some quote
  | escapeString _ => QuotedRun '\'' true body ∧ rest.head? ≠ some '\''
  | dollarQuoted tag => ∃ content, body = content ++ ('$' :: tag ++ ['$']) ∧
      ∀ a b, body ++ rest = a ++ ('$' :: tag ++ ['$']) ++ b → content.length ≤ a.length

def inWordAfter (inWord : Bool) (c : Char) : Bool := isIdentifierChar c || (inWord && c == '$')

/-- The next piece of a text. Where `params` holds, a dollar with digits behind it is a token of
its own; a character of a word is a piece by itself. -/
inductive Next (params : Bool) : Bool → Text → Piece → Bool → Text → Prop where
  | construct {w : Bool} {t after body rest : Text} {k : Construct} (hopens : Opens w t k after)
    (hsplit : after = body ++ rest) (hclosed : k.Closed body rest) :
    Next params w t (.copied (k.opening ++ body)) false rest
  | pair (w : Bool) (rest : Text) : Next params w ('?' :: '?' :: rest) .pair false rest
  | mark (w : Bool) {rest : Text} (h : rest.head? ≠ some '?') :
    Next params w ('?' :: rest) .mark false rest
  | param {digits rest : Text} (hparams : params = true) (hne : digits ≠ [])
    (hdigits : ∀ c ∈ digits, c.isDigit = true) (hrest : ∀ c ∈ rest.head?, c.isDigit = false) :
    Next params false ('$' :: (digits ++ rest)) (.param digits) false rest
  | plain {w : Bool} {c : Char} {rest : Text} (hopens : ∀ k after, ¬ Opens w (c :: rest) k after)
    (hmark : c ≠ '?')
    (hparam : ¬ (params = true ∧ w = false ∧ c = '$' ∧ ∃ d ∈ rest.head?, d.isDigit = true)) :
    Next params w (c :: rest) (.copied [c]) (inWordAfter w c) rest

inductive Reads (params : Bool) : Bool → Text → List Piece → Prop where
  | done (w : Bool) : Reads params w [] []
  | next {w w' : Bool} {t t' : Text} {p : Piece} {ps : List Piece} (h : Next params w t p w' t')
    (hrest : Reads params w' t' ps) : Reads params w t (p :: ps)

inductive EndsInside (params : Bool) : Bool → Text → Prop where
  | here {w : Bool} {t after : Text} {k : Construct} (hopens : Opens w t k after)
    (hnever : ∀ body rest, after = body ++ rest → ¬ k.Closed body rest) : EndsInside params w t
  | later {w w' : Bool} {t t' : Text} {p : Piece} (h : Next params w t p w' t')
    (hrest : EndsInside params w' t') : EndsInside params w t

/-- The places a reading comes to, with the character in front of each. -/
inductive Reached (params : Bool) (text : Text) : Option Char → Bool → Text → Prop where
  | start : Reached params text none false text
  | next {prev : Option Char} {w w' : Bool} {t t' : Text} {p : Piece}
    (h : Reached params text prev w t) (hnext : Next params w t p w' t') :
    Reached params text (lastOf p) w' t'

/-- The places a reading comes to from one it has come to. -/
inductive From (params : Bool) : Bool → Text → Bool → Text → Prop where
  | here (w : Bool) (t : Text) : From params w t w t
  | later {w w' w'' : Bool} {t t' t'' : Text} {p : Piece} (h : Next params w t p w' t')
    (hrest : From params w' t' w'' t'') : From params w t w'' t''

/-- No parameter is read from a place on. -/
def NoParams (params inWord : Bool) (t : Text) : Prop :=
  ∀ ⦃w t' digits w' t''⦄, From params inWord t w t' → ¬ Next params w t' (.param digits) w' t''

theorem Nested.skip {n : ℕ} {body : Text} (h : Nested n body) (rest : Text) :
    skipBlockComment n (body ++ rest) = some (body, rest) := by
  induction h with
  | last => simp [skipBlockComment]
  | close _ ih => simp [skipBlockComment, ih]
  | reopen _ ih => simp [skipBlockComment, ih]
  | other hopen hclose _ ih =>
    rw [List.cons_append, List.cons_append] at *
    rw [skipBlockComment, ih]
    · rfl
    · rintro rfl rfl
      exact hopen ⟨rfl, rfl⟩
    · rintro rfl rfl
      exact hclose ⟨rfl, rfl⟩

theorem nested_of_skip {n : ℕ} {sql : Text} {r : Text × Text} (hn : 0 < n)
    (h : skipBlockComment n sql = some r) : Nested n r.1 := by
  fun_induction skipBlockComment n sql generalizing r with
  | case1 depth sql ih =>
    obtain ⟨a, ha, rfl⟩ := Option.map_eq_some_iff.mp h
    obtain ⟨m, rfl⟩ := Nat.exists_eq_succ_of_ne_zero hn.ne'
    exact .reopen (ih (Nat.succ_pos _) ha)
  | case2 depth sql hdepth =>
    obtain rfl := Option.some.inj h
    obtain rfl : depth = 1 := by omega
    exact .last
  | case3 depth sql hdepth ih =>
    obtain ⟨a, ha, rfl⟩ := Option.map_eq_some_iff.mp h
    obtain ⟨m, rfl⟩ : ∃ m, depth = m + 2 := ⟨depth - 2, by omega⟩
    exact .close (ih (Nat.succ_pos _) ha)
  | case4 depth c d sql hopen hclose ih =>
    obtain ⟨a, ha, rfl⟩ := Option.map_eq_some_iff.mp h
    have hrun := ih hn ha
    have hall := skipBlockComment_append ha
    obtain ⟨⟨_ | ⟨x, body⟩⟩, rest⟩ := a
    · cases hrun
    · obtain ⟨rfl, rfl⟩ := List.cons.inj hall
      refine .other ?_ ?_ hrun
      · rintro ⟨rfl, rfl⟩
        exact hopen rfl rfl
      · rintro ⟨rfl, rfl⟩
        exact hclose rfl rfl
  | case5 => cases h

theorem QuotedRun.skip {quote : Char} {escapes : Bool} (hquote : quote ≠ '\\') {body rest : Text}
    (h : QuotedRun quote escapes body) (hrest : rest.head? ≠ some quote) :
    skipDoubled quote escapes (body ++ rest) = some (body, rest) := by
  induction h with
  | close =>
    cases rest with
    | nil => simp [skipDoubled, hquote]
    | cons d rest =>
      have hd : d ≠ quote := fun hd => hrest (by rw [hd]; rfl)
      simp [skipDoubled, hquote, hd]
  | doubled _ ih => simp [skipDoubled, hquote, ih]
  | backslash he _ ih =>
    subst he
    simp [skipDoubled, ih]
  | @other c t hc he h ih =>
    obtain ⟨d, t, rfl⟩ : ∃ d t', t = d :: t' := by
      cases h <;> exact ⟨_, _, rfl⟩
    rw [List.cons_append, List.cons_append, skipDoubled, if_neg he, if_neg hc, ← List.cons_append, ih]
    rfl

theorem run_of_skip {quote : Char} {escapes : Bool} {sql : Text} {r : Text × Text}
    (h : skipDoubled quote escapes sql = some r) :
    QuotedRun quote escapes r.1 ∧ r.2.head? ≠ some quote := by
  fun_induction skipDoubled quote escapes sql generalizing r with
  | case1 => cases h
  | case2 => cases h
  | case3 =>
    obtain rfl := Option.some.inj h
    exact ⟨.close, by simp⟩
  | case4 => cases h
  | case5 c d sql hc ih =>
    obtain ⟨a, ha, rfl⟩ := Option.map_eq_some_iff.mp h
    obtain ⟨he, rfl⟩ := hc
    exact ⟨.backslash he (ih ha).1, (ih ha).2⟩
  | case6 sql _ ih =>
    obtain ⟨a, ha, rfl⟩ := Option.map_eq_some_iff.mp h
    exact ⟨.doubled (ih ha).1, (ih ha).2⟩
  | case7 d sql hd =>
    obtain rfl := Option.some.inj h
    exact ⟨.close, by simpa using hd⟩
  | case8 c d sql he hc ih =>
    obtain ⟨a, ha, rfl⟩ := Option.map_eq_some_iff.mp h
    exact ⟨.other hc he (ih ha).1, (ih ha).2⟩

def skipped : Construct → Text → Option (Text × Text)
  | .lineComment, sql => some (sql.span (· ≠ '\n'))
  | .blockComment, sql => skipBlockComment 1 sql
  | .quoted quote, sql => skipDoubled quote false sql
  | .escapeString _, sql => skipDoubled '\'' true sql
  | .dollarQuoted tag, sql =>
    (breakOn ('$' :: tag ++ ['$']) sql).map fun r => (r.1 ++ ('$' :: tag ++ ['$']), r.2)

theorem skipped_line {body rest : Text} :
    skipped .lineComment (body ++ rest) = some (body, rest) ↔
      Construct.lineComment.Closed body rest := by
  rw [skipped, List.span_eq_takeWhile_dropWhile, Option.some.injEq, Prod.mk.injEq]
  constructor
  · rintro ⟨hbody, hrest⟩
    constructor
    · intro hmem
      rw [← hbody] at hmem
      simpa using List.mem_takeWhile_imp hmem
    · intro c hc
      have hstop := List.head?_dropWhile_not (fun x => decide (x ≠ '\n')) (body ++ rest)
      rw [hrest, Option.mem_def.mp hc] at hstop
      simpa using hstop
  · rintro ⟨hbody, hrest⟩
    have hall : ∀ c ∈ body, decide (c ≠ '\n') = true := by
      intro c hc
      exact decide_eq_true (ne_of_mem_of_not_mem hc hbody)
    rw [List.takeWhile_append_of_pos hall, List.dropWhile_append_of_pos hall]
    cases rest with
    | nil => simp
    | cons c rest =>
      have hc : c = '\n' := hrest c rfl
      simp [hc]

/-- The search finds the end of a construct exactly where the rules put it. -/
theorem skipped_iff {w : Bool} {t after : Text} {k : Construct} (hopens : Opens w t k after)
    {body rest : Text} :
    skipped k after = some (body, rest) ↔ after = body ++ rest ∧ k.Closed body rest := by
  cases hopens with
  | lineComment =>
    constructor
    · intro h
      have hall : after = body ++ rest := by
        rw [skipped, List.span_eq_takeWhile_dropWhile, Option.some.injEq, Prod.mk.injEq] at h
        rw [← h.1, ← h.2, List.takeWhile_append_dropWhile]
      exact ⟨hall, skipped_line.mp (hall ▸ h)⟩
    · rintro ⟨rfl, hclosed⟩
      exact skipped_line.mpr hclosed
  | blockComment =>
    constructor
    · intro h
      exact ⟨(skipBlockComment_append h).symm, nested_of_skip Nat.one_pos h⟩
    · rintro ⟨rfl, hclosed⟩
      exact Nested.skip hclosed rest
  | single =>
    constructor
    · intro h
      exact ⟨(skipDoubled_append h).symm, run_of_skip h⟩
    · rintro ⟨rfl, hclosed⟩
      exact hclosed.1.skip (by decide) hclosed.2
  | double =>
    constructor
    · intro h
      exact ⟨(skipDoubled_append h).symm, run_of_skip h⟩
    · rintro ⟨rfl, hclosed⟩
      exact hclosed.1.skip (by decide) hclosed.2
  | escapeString =>
    constructor
    · intro h
      exact ⟨(skipDoubled_append h).symm, run_of_skip h⟩
    · rintro ⟨rfl, hclosed⟩
      exact hclosed.1.skip (by decide) hclosed.2
  | @dollarQuoted tag htag =>
    constructor
    · intro h
      obtain ⟨r, hr, hpair⟩ := Option.map_eq_some_iff.mp h
      obtain ⟨rfl, rfl⟩ := Prod.mk.inj hpair
      have hall := breakOn_eq hr
      refine ⟨hall, r.1, rfl, ?_⟩
      intro a b hab
      exact breakOn_first hr (hall.trans hab)
    · rintro ⟨rfl, content, rfl, hfirst⟩
      have hsep : '$' :: tag ++ ['$'] ≠ [] := List.cons_ne_nil _ _
      obtain ⟨r, hr⟩ := Option.isSome_iff_exists.mp (breakOn_isSome hsep content rest)
      have hall := breakOn_eq hr
      -- neither of the two places of the delimiter is before the other
      have hlen : content.length = r.1.length :=
        Nat.le_antisymm (hfirst _ _ hall) (breakOn_first hr rfl)
      obtain ⟨hleft, hrest⟩ := List.append_inj hall (by simp [hlen])
      have hcontent : content = r.1 := List.append_cancel_right hleft
      rw [skipped, hr, Option.map_some, hcontent, hrest]

/-- The places where the rewriting takes a dollar that continues a word for the opening of a body,
or an E that opens an escape string for the end of a word. -/
def Parts (prev : Option Char) (inWord : Bool) (t : Text) : Prop :=
  (inWord = true ∧ ∃ tag rest, IsTag tag ∧ t = '$' :: (tag ++ '$' :: rest)) ∨
  (inWord = false ∧ prev.any isWordCharacter = true ∧
    ∃ e rest, (e = 'e' ∨ e = 'E') ∧ t = e :: '\'' :: rest)

/-- No place of the reading is one where the readings part. -/
def NeverParts (params : Bool) (text : Text) : Prop :=
  ∀ prev w t, Reached params text prev w t → ¬ Parts prev w t

theorem isWordCharacter_eq (c : Char) :
    isWordCharacter c = (isIdentifierChar c || c == '$') := by
  simp only [isWordCharacter, isIdentifierChar, Char.isAlphanum]
  grind

theorem dollarDelimiter_of_tag {tag : Text} (htag : IsTag tag) (rest : Text) :
    dollarDelimiter (tag ++ '$' :: rest) = tag.length + 2 := by
  cases tag with
  | nil => simp [dollarDelimiter]
  | cons c tag =>
    have hc : isTagCharacter c = true := htag.chars c List.mem_cons_self
    have hdollar : c ≠ '$' := by
      rintro rfl
      exact absurd hc (by decide)
    have hdigit : c.isDigit = false := htag.first c rfl
    have hstop : isTagCharacter '$' = false := by decide
    have hall : ∀ d ∈ c :: tag, isTagCharacter d = true := htag.chars
    have htake : ((c :: tag) ++ '$' :: rest).takeWhile isTagCharacter = c :: tag := by
      rw [List.takeWhile_append_of_pos hall, List.takeWhile_cons_of_neg (by simp [hstop]),
        List.append_nil]
    have hdrop : ((c :: tag) ++ '$' :: rest).dropWhile isTagCharacter = '$' :: rest := by
      rw [List.dropWhile_append_of_pos hall, List.dropWhile_cons_of_neg (by simp [hstop])]
    rw [List.cons_append] at htake hdrop ⊢
    rw [dollarDelimiter]
    simp only [hdollar, hc, hdigit, htake, hdrop]
    simp

theorem tag_of_dollarDelimiter {sql : Text} (h : 0 < dollarDelimiter sql) :
    ∃ tag rest, IsTag tag ∧ sql = tag ++ '$' :: rest := by
  cases sql with
  | nil => simp [dollarDelimiter] at h
  | cons c sql =>
    rw [dollarDelimiter] at h
    split at h
    · rename_i hc
      exact ⟨[], sql, ⟨by simp, by simp⟩, by rw [hc]; rfl⟩
    · split at h
      · simp at h
      · rename_i hc
        split at h
        · rename_i hhead
          obtain ⟨rest, hrest⟩ := List.head?_eq_some_iff.mp hhead
          simp only [Bool.not_eq_true, not_or, Bool.not_eq_false] at hc
          refine ⟨(c :: sql).takeWhile isTagCharacter, rest, ⟨?_, ?_⟩, ?_⟩
          · intro d hd
            exact List.mem_takeWhile_imp hd
          · intro d hd
            rw [List.takeWhile_cons_of_pos hc.1] at hd
            obtain rfl := Option.some.inj hd
            exact hc.2
          · rw [← hrest, List.takeWhile_append_dropWhile]
        · simp at h

def Construct.reported : Construct → Char
  | lineComment => '-'
  | blockComment => '/'
  | quoted quote => quote
  | escapeString _ => '\''
  | dollarQuoted _ => '$'

section Step
variable {params w w' : Bool} {prev : Option Char} {c : Char} {t t' rest after : Text} {p : Piece}
  {k : Construct}

/-- At the opening of a construct the rewriting looks for the end of that construct. -/
theorem nextPiece_of_opens (hopens : Opens w (c :: t) k after) (hparts : ¬ Parts prev w (c :: t)) :
    nextPiece prev c t = copySpan k.opening k.reported (skipped k after) := by
  cases hopens with
  | lineComment => simp [nextPiece, skipLineComment, skipped, copySpan, Construct.opening,
      List.span_eq_takeWhile_dropWhile]
  | blockComment => simp [nextPiece, skipped, Construct.opening, Construct.reported]
  | single => simp [nextPiece, skipped, Construct.opening, Construct.reported]
  | double => simp [nextPiece, skipped, Construct.opening, Construct.reported]
  | escapeString he =>
    have hprev : leadsEscapeString prev = true := by
      rw [leadsEscapeString, Bool.not_eq_true']
      by_contra hword
      exact hparts (.inr ⟨rfl, by simpa using hword, c, _, he, rfl⟩)
    obtain rfl | rfl := he
    · simp [nextPiece, hprev, skipped, Construct.opening, Construct.reported]
    · simp [nextPiece, hprev, skipped, Construct.opening, Construct.reported]
  | @dollarQuoted tag htag =>
    have hlen := dollarDelimiter_of_tag htag after
    have htake : ('$' :: (tag ++ '$' :: after)).take (tag.length + 2) = '$' :: tag ++ ['$'] := by
      simp [List.take_append]
    have hdrop : ('$' :: (tag ++ '$' :: after)).drop (tag.length + 2) = after := by
      simp [List.drop_append]
    simp only [nextPiece, hlen, skipDollarQuoted, htake, hdrop, skipped, Construct.opening,
      Construct.reported]
    cases breakOn ('$' :: tag ++ ['$']) after <;> simp [copySpan]

def Sync (prev : Option Char) (inWord : Bool) : Prop :=
  inWord = true → prev.any isWordCharacter = true

/-- Where no construct opens, the rewriting finds none. -/
theorem nextPiece_of_plain (hsync : Sync prev w) (hparts : ¬ Parts prev w (c :: t))
    (hopens : ∀ k after, ¬ Opens w (c :: t) k after) (hmark : c ≠ '?') :
    nextPiece prev c t = .ok (.copied [c], t) := by
  have hline : ¬ (c = '-' ∧ t.head? = some '-') := by
    rintro ⟨rfl, hhead⟩
    obtain ⟨t, rfl⟩ := List.head?_eq_some_iff.mp hhead
    exact hopens _ _ (.lineComment w t)
  have hblock : ¬ (c = '/' ∧ t.head? = some '*') := by
    rintro ⟨rfl, hhead⟩
    obtain ⟨t, rfl⟩ := List.head?_eq_some_iff.mp hhead
    exact hopens _ _ (.blockComment w t)
  have hquote : ¬ (c = '\'' ∨ c = '"') := by
    rintro (rfl | rfl)
    · exact hopens _ _ (.single w t)
    · exact hopens _ _ (.double w t)
  have hescape : ¬ ((c = 'e' ∨ c = 'E') ∧ t.head? = some '\'' ∧ leadsEscapeString prev) := by
    rintro ⟨he, hhead, hleads⟩
    obtain ⟨t, rfl⟩ := List.head?_eq_some_iff.mp hhead
    cases w with
    | false => exact hopens _ _ (.escapeString he t)
    | true => simp [leadsEscapeString, hsync rfl] at hleads
  have hdollar : ¬ (c = '$' ∧ 0 < dollarDelimiter t) := by
    rintro ⟨rfl, hpos⟩
    obtain ⟨tag, rest, htag, rfl⟩ := tag_of_dollarDelimiter hpos
    cases w with
    | false => exact hopens _ _ (.dollarQuoted htag rest)
    | true => exact hparts (.inl ⟨rfl, tag, rest, htag, rfl⟩)
  rw [nextPiece, if_neg hline, if_neg hblock, if_neg hquote, if_neg hescape, if_neg hdollar,
    if_neg hmark]

/-- Where the readings do not part, the rewriting takes the piece the rules give; a parameter it
takes character by character. -/
theorem Next.nextPiece (hsync : Sync prev w) (hparts : ¬ Parts prev w (c :: t))
    (hparam : ∀ digits, p ≠ .param digits) (h : Next params w (c :: t) p w' t') :
    Libpq.nextPiece prev c t = .ok (p, t') := by
  generalize htext : c :: t = text at h
  cases h with
  | construct hopens hsplit hclosed =>
    subst htext
    rw [nextPiece_of_opens hopens hparts, (skipped_iff hopens).mpr ⟨hsplit, hclosed⟩]
    rfl
  | pair =>
    obtain ⟨rfl, rfl⟩ := List.cons.inj htext
    simp [Libpq.nextPiece]
  | mark _ hmark =>
    obtain ⟨rfl, rfl⟩ := List.cons.inj htext
    simp [Libpq.nextPiece, hmark]
  | param => exact absurd rfl (hparam _)
  | plain hopens hmark =>
    obtain ⟨rfl, rfl⟩ := List.cons.inj htext
    exact nextPiece_of_plain hsync hparts hopens hmark

/-- A construct that does not end is reported. -/
theorem nextPiece_of_endless (hparts : ¬ Parts prev w (c :: t)) (hopens : Opens w (c :: t) k after)
    (hnever : ∀ body rest, after = body ++ rest → ¬ k.Closed body rest) :
    nextPiece prev c t = .error k.reported := by
  have hnone : skipped k after = none := by
    rw [Option.eq_none_iff_forall_ne_some]
    intro r hr
    obtain ⟨hsplit, hclosed⟩ := (skipped_iff hopens).mp hr
    exact hnever _ _ hsplit hclosed
  rw [nextPiece_of_opens hopens hparts, hnone]
  rfl

theorem Next.sync (h : Next params w t p w' t') : Sync (lastOf p) w' := by
  intro hw
  cases h with
  | construct => cases hw
  | pair => cases hw
  | mark => cases hw
  | param => cases hw
  | @plain w c rest =>
    simp only [lastOf, Piece.source, List.getLast?_singleton, Option.any_some, isWordCharacter_eq]
    rw [inWordAfter, Bool.or_eq_true, Bool.and_eq_true] at hw
    rw [Bool.or_eq_true]
    exact hw.imp id And.right

/-- Without parameters as tokens none is read. -/
theorem noParams_false (w : Bool) (t : Text) : NoParams false w t := by
  intro w' t' digits w'' t'' _ h
  cases h with
  | param hparams => cases hparams

theorem NoParams.ne_param (h : NoParams params w t) (hnext : Next params w t p w' t')
    (digits : Text) : p ≠ .param digits := by
  rintro rfl
  exact h (.here w t) hnext

theorem NoParams.later (h : NoParams params w t) (hnext : Next params w t p w' t') :
    NoParams params w' t' := fun _ _ _ _ _ hfrom => h (.later hnext hfrom)

theorem Next.shortens (h : Next params w t p w' t') : t'.length < t.length := by
  cases h with
  | construct hopens hsplit _ =>
    subst hsplit
    cases hopens <;> simp <;> omega
  | pair =>
    simp only [List.length_cons]
    omega
  | mark => simp
  | param =>
    simp only [List.length_cons, List.length_append]
    omega
  | plain => simp

/-- A text that is not at its end has a next piece or opens a construct that does not end. -/
theorem next_or_endless (params w : Bool) (c : Char) (t : Text) :
    (∃ p w' t', Next params w (c :: t) p w' t') ∨
    ∃ k after, Opens w (c :: t) k after ∧
      ∀ body rest, after = body ++ rest → ¬ k.Closed body rest := by
  by_cases hopens : ∃ k after, Opens w (c :: t) k after
  · obtain ⟨k, after, hopens⟩ := hopens
    cases hskip : skipped k after with
    | none =>
      refine .inr ⟨k, after, hopens, fun body rest hsplit hclosed => ?_⟩
      rw [(skipped_iff hopens).mpr ⟨hsplit, hclosed⟩] at hskip
      cases hskip
    | some r =>
      obtain ⟨body, rest⟩ := r
      obtain ⟨hsplit, hclosed⟩ := (skipped_iff hopens).mp hskip
      exact .inl ⟨_, _, _, .construct hopens hsplit hclosed⟩
  · have hnone : ∀ k after, ¬ Opens w (c :: t) k after := fun k after h => hopens ⟨k, after, h⟩
    left
    by_cases hmark : c = '?'
    · subst hmark
      by_cases hpair : t.head? = some '?'
      · obtain ⟨t, rfl⟩ := List.head?_eq_some_iff.mp hpair
        exact ⟨_, _, _, .pair w t⟩
      · exact ⟨_, _, _, .mark w hpair⟩
    · by_cases hparam : params = true ∧ w = false ∧ c = '$' ∧ ∃ d ∈ t.head?, d.isDigit = true
      · obtain ⟨hparams, rfl, rfl, d, hd, hdigit⟩ := hparam
        obtain ⟨rest, rfl⟩ := List.head?_eq_some_iff.mp hd
        have hsplit := List.takeWhile_append_dropWhile (p := Char.isDigit) (l := d :: rest)
        rw [← hsplit]
        refine ⟨_, _, _, .param hparams ?_ (fun x hx => List.mem_takeWhile_imp hx) ?_⟩
        · rw [List.takeWhile_cons_of_pos hdigit]
          exact List.cons_ne_nil _ _
        · intro x hx
          have hstop := List.head?_dropWhile_not Char.isDigit (d :: rest)
          rw [Option.mem_def.mp hx] at hstop
          simpa using hstop
      · exact ⟨_, _, _, .plain hnone hmark hparam⟩

theorem reads_or_endsInside (params w : Bool) (text : Text) :
    (∃ ps, Reads params w text ps) ∨ EndsInside params w text := by
  induction hn : text.length using Nat.strongRecOn generalizing w text with
  | ind n ih =>
    cases text with
    | nil => exact .inl ⟨[], .done w⟩
    | cons c t =>
      rcases next_or_endless params w c t with ⟨p, w', t', hnext⟩ | ⟨k, after, hopens, hnever⟩
      · rcases ih _ (hn ▸ hnext.shortens) w' t' rfl with ⟨ps, hps⟩ | hends
        · exact .inl ⟨p :: ps, .next hnext hps⟩
        · exact .inr (.later hnext hends)
      · exact .inr (.here hopens hnever)

theorem Reached.sync (h : Reached params t' prev w t) : Sync prev w := by
  cases h with
  | start => simp [Sync]
  | next _ hnext => exact hnext.sync

theorem Reads.read {text : Text} {ps : List Piece} (hnever : NeverParts params text)
    (hreads : Reads params w t ps) (hparam : NoParams params w t)
    (hreached : Reached params text prev w t) : pieces.read prev t = .ok ps := by
  induction hreads generalizing prev with
  | done => rfl
  | @next w w' t t' p ps hnext _ ih =>
    cases t with
    | nil => exact absurd hnext.shortens (Nat.not_lt_zero _)
    | cons c t =>
      have hpiece := hnext.nextPiece hreached.sync (hnever _ _ _ hreached) (hparam.ne_param hnext)
      have hstep : pieces.step prev c t = .ok (p, lastOf p, t') := by
        simp only [pieces, hpiece]
        rfl
      have hrest := ih (hparam.later hnext) (.next hreached hnext)
      rw [pieces.read_of_step hstep, hrest]
      rfl

theorem EndsInside.read {text : Text} (hnever : NeverParts params text)
    (hends : EndsInside params w t) (hparam : NoParams params w t)
    (hreached : Reached params text prev w t) : ∃ e, pieces.read prev t = .error e := by
  induction hends generalizing prev with
  | @here w t after k hopens hnone =>
    cases t with
    | nil => cases hopens
    | cons c t =>
      have hpiece := nextPiece_of_endless (hnever _ _ _ hreached) hopens hnone
      refine ⟨k.reported, pieces.read_of_error ?_⟩
      simp only [pieces, hpiece]
      rfl
  | @later w w' t t' p hnext _ ih =>
    cases t with
    | nil => exact absurd hnext.shortens (Nat.not_lt_zero _)
    | cons c t =>
      have hpiece := hnext.nextPiece hreached.sync (hnever _ _ _ hreached) (hparam.ne_param hnext)
      have hstep : pieces.step prev c t = .ok (p, lastOf p, t') := by
        simp only [pieces, hpiece]
        rfl
      obtain ⟨e, he⟩ := ih (hparam.later hnext) (.next hreached hnext)
      refine ⟨e, ?_⟩
      rw [pieces.read_of_step hstep, he]
      rfl

end Step

/-- The text is rewritten as the rules say: the pieces of its reading, marks numbered and doubled
marks halved, and an error exactly where the text ends inside a construct. -/
structure Follows (text : Text) : Prop where
  rewrites : ∀ out n, rewritePlaceholders text = .ok (out, n) ↔
    ∃ ps, Reads false false text ps ∧ out = emit '$' 0 ps ∧ n = markCount ps
  throws : (∃ e, rewritePlaceholders text = .error e) ↔ EndsInside false false text

/-- At every place the reading comes to, the rewriting takes the piece the rules give there. -/
structure ReadsAlike (text : Text) : Prop where
  next : ∀ {prev w c t p w' t'}, Reached false text prev w (c :: t) →
    Next false w (c :: t) p w' t' → nextPiece prev c t = .ok (p, t')
  endless : ∀ {prev w c t k after}, Reached false text prev w (c :: t) → Opens w (c :: t) k after →
    (∀ body rest, after = body ++ rest → ¬ k.Closed body rest) → ∃ e, nextPiece prev c t = .error e

theorem rewritePlaceholders_ok {text : Text} {ps : List Piece} (h : pieces.read none text = .ok ps) :
    rewritePlaceholders text = .ok (emit '$' 0 ps, markCount ps) := by
  rw [rewritePlaceholders, h]

theorem rewritePlaceholders_error {text : Text} {e : Char} (h : pieces.read none text = .error e) :
    rewritePlaceholders text = .error (unterminated e) := by
  rw [rewritePlaceholders, h]

theorem NeverParts.follows {text : Text} (h : NeverParts false text) : Follows text := by
  have hreads : ∀ ps, Reads false false text ps →
      rewritePlaceholders text = .ok (emit '$' 0 ps, markCount ps) := fun ps hps =>
    rewritePlaceholders_ok (hps.read h (noParams_false false text) .start)
  have hends : EndsInside false false text → ∃ e, rewritePlaceholders text = .error e := by
    intro hends
    obtain ⟨e, he⟩ := hends.read h (noParams_false false text) .start
    exact ⟨unterminated e, rewritePlaceholders_error he⟩
  constructor
  · intro out n
    constructor
    · intro hout
      rcases reads_or_endsInside false false text with ⟨ps, hps⟩ | hinside
      · rw [hreads ps hps] at hout
        obtain ⟨rfl, rfl⟩ := Prod.mk.inj (Except.ok.inj hout)
        exact ⟨ps, hps, rfl, rfl⟩
      · obtain ⟨e, he⟩ := hends hinside
        rw [hout] at he
        cases he
    · rintro ⟨ps, hps, rfl, rfl⟩
      exact hreads ps hps
  · constructor
    · rintro ⟨e, he⟩
      rcases reads_or_endsInside false false text with ⟨ps, hps⟩ | hinside
      · rw [hreads ps hps] at he
        cases he
      · exact hinside
    · exact hends

theorem NeverParts.readsAlike {text : Text} (h : NeverParts false text) : ReadsAlike text where
  next hreached hnext := hnext.nextPiece hreached.sync (h _ _ _ hreached)
    ((noParams_false _ _).ne_param hnext)
  endless hreached hopens hnever :=
    ⟨_, nextPiece_of_endless (h _ _ _ hreached) hopens hnever⟩

theorem not_opens_dollar {t : Text} (k : Construct) (after : Text) :
    ¬ Opens true ('$' :: t) k after := by
  intro h
  cases h

theorem ReadsAlike.neverParts {text : Text} (h : ReadsAlike text) : NeverParts false text := by
  rintro prev w t hreached (⟨rfl, tag, rest, htag, rfl⟩ | ⟨rfl, hprev, e, rest, he, rfl⟩)
  · -- the rules go on with the word, the rewriting looks for the end of a body
    have hplain := h.next hreached (.plain not_opens_dollar (by decide) (by simp))
    have hopens : ¬ Parts prev false ('$' :: (tag ++ '$' :: rest)) := by simp [Parts]
    have hbody := nextPiece_of_opens (.dollarQuoted htag rest) hopens
    rw [hplain] at hbody
    obtain ⟨span, -, hspan⟩ := copySpan_eq_ok hbody.symm
    simp [Construct.opening] at hspan
  · -- the rules open an escape string, the rewriting copies the letter
    have hletter : nextPiece prev e ('\'' :: rest) = .ok (.copied [e], '\'' :: rest) := by
      have hleads : leadsEscapeString prev = false := by simp [leadsEscapeString, hprev]
      obtain rfl | rfl := he <;> simp [nextPiece, hleads]
    have hopens := Opens.escapeString he rest
    cases hskip : skipped (.escapeString e) rest with
    | none =>
      obtain ⟨opening, herror⟩ := h.endless hreached hopens fun body rest' hsplit hclosed => by
        rw [(skipped_iff hopens).mpr ⟨hsplit, hclosed⟩] at hskip
        cases hskip
      rw [hletter] at herror
      cases herror
    | some r =>
      obtain ⟨body, rest'⟩ := r
      obtain ⟨hsplit, hclosed⟩ := (skipped_iff hopens).mp hskip
      have hstring := h.next hreached (.construct hopens hsplit hclosed)
      rw [hletter] at hstring
      simp [Construct.opening] at hstring

/-- Where no dollar that continues a word is followed by the rest of a tag, and no escape string
begins right behind a dollar, the rewriting follows the rules; on every other text it takes a
piece that is not the rules'. -/
theorem rewrite_follows_lexical_rules (text : Text) :
    (NeverParts false text → Follows text) ∧ (NeverParts false text ↔ ReadsAlike text) :=
  ⟨NeverParts.follows, NeverParts.readsAlike, ReadsAlike.neverParts⟩

theorem Reads.plain {w : Bool} {c : Char} {t : Text} {ps : List Piece}
    (hopens : ∀ k after, ¬ Opens w (c :: t) k after) (hmark : c ≠ '?')
    (hrest : Reads false (inWordAfter w c) t ps) : Reads false w (c :: t) (.copied [c] :: ps) :=
  .next (.plain hopens hmark (by simp)) hrest

/-- A table whose name goes on with dollars: the server reads one mark, the rewriting looks for the
end of a body. A string that begins right behind a body: the server reads no mark, the rewriting
ends the string too early. -/
theorem dollar_name_and_string_after_body_misread :
    ¬ Follows ['t', '$', 'x', '$', '=', '?'] ∧
    ¬ Follows ['$', '$', '$', '$', 'E', '\'', '\\', '\'', '?', '\''] := by
  constructor
  · intro h
    have hreads : Reads false false ['t', '$', 'x', '$', '=', '?']
        [.copied ['t'], .copied ['$'], .copied ['x'], .copied ['$'], .copied ['='], .mark] := by
      apply Reads.plain (by intro k a ho; cases ho) (by decide)
      apply Reads.plain (by intro k a ho; cases ho) (by decide)
      apply Reads.plain (by intro k a ho; cases ho) (by decide)
      apply Reads.plain (by intro k a ho; cases ho) (by decide)
      apply Reads.plain (by intro k a ho; cases ho) (by decide)
      exact .next (.mark _ (by decide)) (.done _)
    have hok := (h.rewrites _ _).mpr ⟨_, hreads, rfl, rfl⟩
    exact absurd hok (by decide)
  · intro h
    have hempty : IsTag [] := ⟨by simp, by simp⟩
    have hbody : Next false false ['$', '$', '$', '$', 'E', '\'', '\\', '\'', '?', '\'']
        (.copied ['$', '$', '$', '$']) false ['E', '\'', '\\', '\'', '?', '\''] :=
      .construct (.dollarQuoted hempty _) rfl ⟨[], rfl, fun _ _ _ => Nat.zero_le _⟩
    have hrun : QuotedRun '\'' true ['\\', '\'', '?', '\''] :=
      .backslash rfl (.other (by decide) (by decide) .close)
    have hstring : Next false false ['E', '\'', '\\', '\'', '?', '\'']
        (.copied ['E', '\'', '\\', '\'', '?', '\'']) false [] :=
      .construct (.escapeString (.inr rfl) _) (List.append_nil _).symm ⟨hrun, by decide⟩
    have hok := (h.rewrites _ _).mpr ⟨_, .next hbody (.next hstring (.done _)), rfl, rfl⟩
    exact absurd hok (by decide)

end Lexical

end Uniorm.Libpq
