import Uniorm.Foundation.Grammar
import Uniorm.Foundation.Text
import Uniorm.Oracle.SqlText

/-! # The tokens of Oracle SQL and the rewriting

Oracle's rules for what a `?` may stand inside of: literals, delimited
identifiers, alternate quotes and comments, with what opens each of them and
what closes it. Outside of these a text is words, numbers and single
characters. A q behind other letters belongs to their word and opens nothing;
on every text without such a q in front of a quote, the rewriting takes the
pieces these rules give.
-/
namespace Uniorm.Oracle

open Foundation Sql

namespace Lexical

def isIdentifierChar (c : Char) : Bool :=
  c.isAlpha || c.isDigit || c == '_' || c == '$' || c == '#' || decide (0x80 ≤ c.toNat)

/-- What a place outside the quotes and comments stands behind. -/
inductive Place where
  /-- The end of a token. -/
  | fresh
  /-- The n that a word begins with. -/
  | national
  | word
  | number
  deriving DecidableEq, Repr

def leadsExponent : Text → Bool
  | c :: d :: _ => c.isDigit || (c == '+' || c == '-') && d.isDigit
  | [c] => c.isDigit
  | [] => false

def Place.begun (c : Char) : Place :=
  if c.isDigit then number
  else if c = 'n' ∨ c = 'N' then national
  else if isIdentifierChar c then word
  else fresh

def Place.behind (c : Char) (rest : Text) : Place → Place
  | fresh => begun c
  | national | word => if isIdentifierChar c then word else fresh
  | number =>
    if c.isDigit ∨ c = '.' ∨ (c = 'e' ∨ c = 'E') ∧ leadsExponent rest then number
    else if c = 'f' ∨ c = 'F' ∨ c = 'd' ∨ c = 'D' then fresh
    else begun c

inductive Construct where
  | lineComment
  | blockComment
  | quoted (quote : Char)
  | alternate (q : Char)
  deriving DecidableEq, Repr

def Construct.opening : Construct → Text
  | lineComment => ['-', '-']
  | blockComment => ['/', '*']
  | quoted quote => [quote]
  | alternate q => [q, '\'']

/-- A construct opens at the front of a text. A q opens one where a token starts, or behind the n
that one has started with. -/
inductive Opens : Place → Text → Construct → Text → Prop where
  | lineComment (place : Place) (t : Text) : Opens place ('-' :: '-' :: t) .lineComment t
  | blockComment (place : Place) (t : Text) : Opens place ('/' :: '*' :: t) .blockComment t
  | single (place : Place) (t : Text) : Opens place ('\'' :: t) (.quoted '\'') t
  | double (place : Place) (t : Text) : Opens place ('"' :: t) (.quoted '"') t
  | alternate {place : Place} (hplace : place ≠ .word) {q : Char} (hq : q = 'q' ∨ q = 'Q')
    (t : Text) : Opens place (q :: '\'' :: t) (.alternate q) t

inductive Closes : Char → Char → Prop where
  | square : Closes '[' ']'
  | brace : Closes '\x7b' '\x7d'
  | angle : Closes '<' '>'
  | round : Closes '(' ')'
  | same {c : Char} (hc : c ∉ ['[', '\x7b', '<', '(']) : Closes c c

inductive QuotedRun (quote : Char) : Text → Prop where
  | close : QuotedRun quote [quote]
  | doubled {t : Text} (h : QuotedRun quote t) : QuotedRun quote (quote :: quote :: t)
  | other {c : Char} {t : Text} (hc : c ≠ quote) (h : QuotedRun quote t) : QuotedRun quote (c :: t)

def EndsWithFirst (sep body rest : Text) : Prop :=
  ∃ content, body = content ++ sep ∧ ∀ a b, body ++ rest = a ++ sep ++ b → content.length ≤ a.length

/-- What runs from behind the opening of a construct to its end, before the text that follows. -/
def Construct.Closed (k : Construct) (body rest : Text) : Prop :=
  match k with
  | lineComment => '\n' ∉ body ∧ ∀ c ∈ rest.head?, c = '\n'
  | blockComment => EndsWithFirst ['*', '/'] body rest
  | quoted quote => QuotedRun quote body ∧ rest.head? ≠ some quote
  | alternate _ => ∃ opener closer content, body = opener :: content ∧ Closes opener closer ∧
      EndsWithFirst [closer, '\''] content rest

inductive Next : Place → Text → Piece → Place → Text → Prop where
  | construct {place : Place} {t after body rest : Text} {k : Construct}
    (hopens : Opens place t k after) (hsplit : after = body ++ rest) (hclosed : k.Closed body rest) :
    Next place t (.copied (k.opening ++ body)) .fresh rest
  | mark (place : Place) (rest : Text) : Next place ('?' :: rest) .mark .fresh rest
  | plain {place : Place} {c : Char} {rest : Text}
    (hopens : ∀ k after, ¬ Opens place (c :: rest) k after) (hmark : c ≠ '?') :
    Next place (c :: rest) (.copied [c]) (place.behind c rest) rest

/-- A construct opens that has no end. -/
def Endless (place : Place) (t : Text) : Prop :=
  ∃ k after, Opens place t k after ∧ ∀ body rest, after = body ++ rest → ¬ k.Closed body rest

theorem closes_iff {opener closer : Char} :
    Closes opener closer ↔ closer = alternateCloser opener := by
  constructor
  · intro h
    cases h with
    | same hc =>
      simp only [List.mem_cons, List.not_mem_nil, or_false, not_or] at hc
      simp [alternateCloser, hc]
    | _ => rfl
  · rintro rfl
    unfold alternateCloser
    split_ifs with hsquare hbrace hangle hround
    · exact hsquare ▸ .square
    · exact hbrace ▸ .brace
    · exact hangle ▸ .angle
    · exact hround ▸ .round
    · exact .same (by simp [hsquare, hbrace, hangle, hround])

/-- The index loops look for the first occurrence of two characters. -/
theorem skipPast_eq_breakOn (first second : Char) (sql : Text) :
    skipPast first second sql =
      (breakOn [first, second] sql).map fun r => (r.1 ++ [first, second], r.2) := by
  fun_induction skipPast first second sql with
  | case1 c d sql hc =>
    obtain ⟨rfl, rfl⟩ := hc
    simp [breakOn]
  | case2 c d sql hc ih =>
    have hpre : [first, second].isPrefixOf (c :: d :: sql) = false := by
      rw [Bool.eq_false_iff]
      intro hpre
      have hsame := List.isPrefixOf_iff_prefix.mp hpre
      simp only [List.cons_prefix_cons] at hsame
      exact hc ⟨hsame.1.symm, hsame.2.1.symm⟩
    have hlater : breakOn [first, second] (c :: d :: sql) =
        (breakOn [first, second] (d :: sql)).map fun p => (c :: p.1, p.2) := by
      rw [breakOn, hpre]
      rfl
    rw [ih, hlater]
    cases breakOn [first, second] (d :: sql) <;> rfl
  | case3 sql hshort =>
    have hnone : breakOn [first, second] sql = none := by
      rw [Option.eq_none_iff_forall_ne_some]
      intro r hr
      have hlen := congrArg List.length (breakOn_eq hr)
      cases sql with
      | nil => simp at hlen
      | cons c sql =>
        cases sql with
        | nil =>
          simp at hlen
          omega
        | cons d sql => exact hshort c d sql rfl
    rw [hnone]
    rfl

theorem skipPast_eq_some_iff {first second : Char} {sql body rest : Text} :
    skipPast first second sql = some (body, rest) ↔
      sql = body ++ rest ∧ EndsWithFirst [first, second] body rest := by
  rw [skipPast_eq_breakOn, Option.map_eq_some_iff]
  constructor
  · rintro ⟨r, hr, hpair⟩
    obtain ⟨rfl, rfl⟩ := Prod.mk.inj hpair
    have hall := breakOn_eq hr
    exact ⟨hall, r.1, rfl, fun a b hab => breakOn_first hr (hall.trans hab)⟩
  · rintro ⟨rfl, content, rfl, hfirst⟩
    obtain ⟨r, hr⟩ := Option.isSome_iff_exists.mp
      (breakOn_isSome (List.cons_ne_nil first [second]) content rest)
    have hall := breakOn_eq hr
    -- neither of the two places of the separator is before the other
    have hlen : content.length = r.1.length :=
      Nat.le_antisymm (hfirst _ _ hall) (breakOn_first hr rfl)
    obtain ⟨hleft, hrest⟩ := List.append_inj hall (by simp [hlen])
    have hcontent : content = r.1 := List.append_cancel_right hleft
    exact ⟨r, hr, by rw [hcontent, hrest]⟩

theorem QuotedRun.skip {quote : Char} {body rest : Text} (h : QuotedRun quote body)
    (hrest : rest.head? ≠ some quote) :
    skipDoubledQuote quote (body ++ rest) = some (body, rest) := by
  induction h with
  | close => exact skipDoubledQuote_close hrest
  | doubled _ ih => simp [skipDoubledQuote, ih]
  | @other c t hc h ih =>
    obtain ⟨d, t, rfl⟩ : ∃ d t', t = d :: t' := by
      cases h <;> exact ⟨_, _, rfl⟩
    rw [List.cons_append] at ih
    rw [List.cons_append, List.cons_append, skipDoubledQuote, if_neg hc, ih]
    rfl

theorem run_of_skip {quote : Char} {sql : Text} {r : Text × Text}
    (h : skipDoubledQuote quote sql = some r) :
    QuotedRun quote r.1 ∧ r.2.head? ≠ some quote := by
  fun_induction skipDoubledQuote quote sql generalizing r with
  | case1 => cases h
  | case2 =>
    obtain rfl := Option.some.inj h
    exact ⟨.close, by simp⟩
  | case3 => cases h
  | case4 sql ih =>
    obtain ⟨a, ha, rfl⟩ := Option.map_eq_some_iff.mp h
    exact ⟨.doubled (ih ha).1, (ih ha).2⟩
  | case5 d sql hd =>
    obtain rfl := Option.some.inj h
    exact ⟨.close, by simpa using hd⟩
  | case6 c d sql hc ih =>
    obtain ⟨a, ha, rfl⟩ := Option.map_eq_some_iff.mp h
    exact ⟨.other hc (ih ha).1, (ih ha).2⟩

theorem skipDoubledQuote_eq_some_iff {quote : Char} (hquote : quote ≠ ':') {sql body rest : Text} :
    skipDoubledQuote quote sql = some (body, rest) ↔
      sql = body ++ rest ∧ QuotedRun quote body ∧ rest.head? ≠ some quote := by
  constructor
  · intro h
    exact ⟨(stable_skipDoubledQuote hquote h).1.symm, run_of_skip h⟩
  · rintro ⟨rfl, hrun, hrest⟩
    exact hrun.skip hrest

theorem skipAlternateQuoted_eq_some_iff {sql body rest : Text} (q : Char) :
    skipAlternateQuoted sql = some (body, rest) ↔
      sql = body ++ rest ∧ (Construct.alternate q).Closed body rest := by
  cases sql with
  | nil =>
    constructor
    · intro h
      cases h
    · rintro ⟨hnil, opener, closer, content, rfl, -, -⟩
      cases hnil
  | cons opener sql =>
    rw [skipAlternateQuoted, Option.map_eq_some_iff]
    constructor
    · rintro ⟨r, hr, hpair⟩
      obtain ⟨rfl, rfl⟩ := Prod.mk.inj hpair
      obtain ⟨hsplit, hfirst⟩ := skipPast_eq_some_iff.mp hr
      exact ⟨by rw [hsplit]; rfl, opener, _, r.1, rfl, closes_iff.mpr rfl, hfirst⟩
    · rintro ⟨hsplit, opener', closer, content, rfl, hcloses, hfirst⟩
      obtain ⟨rfl, hrest⟩ := List.cons.inj hsplit
      rw [closes_iff.mp hcloses] at hfirst
      exact ⟨(content, rest), skipPast_eq_some_iff.mpr ⟨hrest, hfirst⟩, rfl⟩

theorem skipLineComment_eq_iff {sql body rest : Text} :
    skipLineComment sql = (body, rest) ↔
      sql = body ++ rest ∧ '\n' ∉ body ∧ ∀ c ∈ rest.head?, c = '\n' := by
  rw [skipLineComment, List.span_eq_takeWhile_dropWhile, Prod.mk.injEq]
  constructor
  · rintro ⟨rfl, rfl⟩
    refine ⟨List.takeWhile_append_dropWhile.symm, fun hmem => ?_, fun c hc => ?_⟩
    · simpa using List.mem_takeWhile_imp hmem
    · have hstop := List.head?_dropWhile_not (fun x => decide (x ≠ '\n')) sql
      rw [Option.mem_def.mp hc] at hstop
      simpa using hstop
  · rintro ⟨rfl, hbody, hrest⟩
    have hall : ∀ c ∈ body, decide (c ≠ '\n') = true := by
      intro c hc
      exact decide_eq_true (ne_of_mem_of_not_mem hc hbody)
    rw [List.takeWhile_append_of_pos hall, List.dropWhile_append_of_pos hall]
    cases rest with
    | nil => simp
    | cons c rest =>
      have hc : c = '\n' := hrest c rfl
      simp [hc]

def skipped : Construct → Text → Option (Text × Text)
  | .lineComment, sql => some (skipLineComment sql)
  | .blockComment, sql => skipBlockComment sql
  | .quoted quote, sql => skipDoubledQuote quote sql
  | .alternate _, sql => skipAlternateQuoted sql

/-- The search finds the end of a construct exactly where the rules put it. -/
theorem skipped_iff {place : Place} {t after : Text} {k : Construct}
    (hopens : Opens place t k after) {body rest : Text} :
    skipped k after = some (body, rest) ↔ after = body ++ rest ∧ k.Closed body rest := by
  cases hopens with
  | lineComment => exact Option.some_inj.trans skipLineComment_eq_iff
  | blockComment => exact skipPast_eq_some_iff
  | single => exact skipDoubledQuote_eq_some_iff (by decide)
  | double => exact skipDoubledQuote_eq_some_iff (by decide)
  | alternate => exact skipAlternateQuoted_eq_some_iff _

def Construct.reported : Construct → Char
  | lineComment => '-'
  | blockComment => '/'
  | quoted quote => quote
  | alternate _ => 'q'

section Step
variable {place place' : Place} {c : Char} {t t' after : Text} {p : Piece} {k : Construct}

theorem skipConstruct_of_opens (hopens : Opens place (c :: t) k after) :
    skipConstruct c t =
      some (k.reported, (skipped k after).map fun r => (k.opening ++ r.1, r.2)) := by
  cases hopens with
  | lineComment =>
    simp [skipConstruct, skipped, skipLineComment, Construct.reported, Construct.opening,
      List.span_eq_takeWhile_dropWhile]
  | blockComment => simp [skipConstruct, skipped, Construct.reported, Construct.opening]
  | single => simp [skipConstruct, skipped, Construct.reported, Construct.opening]
  | double => simp [skipConstruct, skipped, Construct.reported, Construct.opening]
  | alternate _ hq =>
    obtain rfl | rfl := hq
    · simp [skipConstruct, skipped, Construct.reported, Construct.opening]
    · simp [skipConstruct, skipped, Construct.reported, Construct.opening]

/-- Where no construct opens, the rewriting finds none, unless it takes the end of a word for the
opening of an alternate quote. -/
theorem skipConstruct_of_plain (hopens : ∀ k after, ¬ Opens place (c :: t) k after)
    (hword : (c = 'q' ∨ c = 'Q') → t.head? = some '\'' → place ≠ .word) :
    skipConstruct c t = none := by
  have hline : ¬ (c = '-' ∧ t.head? = some '-') := by
    rintro ⟨rfl, hhead⟩
    obtain ⟨t, rfl⟩ := List.head?_eq_some_iff.mp hhead
    exact hopens _ _ (.lineComment place t)
  have hblock : ¬ (c = '/' ∧ t.head? = some '*') := by
    rintro ⟨rfl, hhead⟩
    obtain ⟨t, rfl⟩ := List.head?_eq_some_iff.mp hhead
    exact hopens _ _ (.blockComment place t)
  have hsingle : c ≠ '\'' := by
    rintro rfl
    exact hopens _ _ (.single place t)
  have halternate : ¬ ((c = 'q' ∨ c = 'Q') ∧ t.head? = some '\'') := by
    rintro ⟨hq, hhead⟩
    obtain ⟨t, rfl⟩ := List.head?_eq_some_iff.mp hhead
    exact hopens _ _ (.alternate (hword hq hhead) hq t)
  have hdouble : c ≠ '"' := by
    rintro rfl
    exact hopens _ _ (.double place t)
  rw [skipConstruct, if_neg hline, if_neg hblock, if_neg hsingle, if_neg halternate,
    if_neg hdouble]

theorem not_opens_mark {k : Construct} : ¬ Opens place ('?' :: t) k after := by
  intro h
  cases h with
  | alternate _ hq => exact absurd hq (by decide)

theorem skipConstruct_mark (t : Text) : skipConstruct '?' t = none := by simp [skipConstruct]

/-- The rewriting takes the piece that the rules give. -/
theorem Next.nextPiece (h : Next place (c :: t) p place' t')
    (hword : (c = 'q' ∨ c = 'Q') → t.head? = some '\'' → place ≠ .word) :
    Oracle.nextPiece c t = .ok (p, t') := by
  generalize htext : c :: t = text at h
  cases h with
  | construct hopens hsplit hclosed =>
    subst htext
    have hskip := (skipped_iff hopens).mpr ⟨hsplit, hclosed⟩
    rw [Oracle.nextPiece, skipConstruct_of_opens hopens, hskip]
    rfl
  | mark =>
    obtain ⟨rfl, rfl⟩ := List.cons.inj htext
    simp [Oracle.nextPiece, skipConstruct_mark]
  | plain hopens hmark =>
    obtain ⟨rfl, rfl⟩ := List.cons.inj htext
    rw [Oracle.nextPiece, skipConstruct_of_plain hopens hword]
    exact if_neg hmark

/-- A construct that does not end is reported. -/
theorem Endless.nextPiece (h : Endless place (c :: t)) : ∃ e, nextPiece c t = .error e := by
  obtain ⟨k, after, hopens, hnever⟩ := h
  have hnone : skipped k after = none := by
    rw [Option.eq_none_iff_forall_ne_some]
    intro r hr
    obtain ⟨hsplit, hclosed⟩ := (skipped_iff hopens).mp hr
    exact hnever _ _ hsplit hclosed
  refine ⟨k.reported, ?_⟩
  rw [Oracle.nextPiece, skipConstruct_of_opens hopens, hnone]
  rfl

/-- Every piece is taken off the front. -/
theorem Next.source (h : Next place t p place' t') :
    p.source ':' ≠ [] ∧ t = p.source ':' ++ t' := by
  cases h with
  | construct hopens hsplit _ =>
    subst hsplit
    cases hopens <;> exact ⟨List.cons_ne_nil _ _, rfl⟩
  | mark => exact ⟨List.cons_ne_nil _ _, rfl⟩
  | plain => exact ⟨List.cons_ne_nil _ _, rfl⟩

theorem Next.shortens (h : Next place t p place' t') : t'.length < t.length := by
  obtain ⟨hne, rfl⟩ := h.source
  have hpos := List.length_pos_iff.mpr hne
  rw [List.length_append]
  omega

/-- A text that is not at its end has a next piece or opens a construct that does not end. -/
theorem next_or_endless (place : Place) (c : Char) (t : Text) :
    (∃ p place' t', Next place (c :: t) p place' t') ∨ Endless place (c :: t) := by
  by_cases hopens : ∃ k after, Opens place (c :: t) k after
  · obtain ⟨k, after, hopens⟩ := hopens
    cases hskip : skipped k after with
    | none =>
      refine .inr ⟨k, after, hopens, fun body rest hsplit hclosed => ?_⟩
      rw [(skipped_iff hopens).mpr ⟨hsplit, hclosed⟩] at hskip
      cases hskip
    | some r =>
      obtain ⟨body, rest⟩ := r
      obtain ⟨hsplit, hclosed⟩ := (skipped_iff hopens).mp hskip
      exact .inl ⟨_, _, _, .construct hopens hsplit hclosed⟩
  · have hnone : ∀ k after, ¬ Opens place (c :: t) k after := fun k after h => hopens ⟨k, after, h⟩
    by_cases hmark : c = '?'
    · subst hmark
      exact .inl ⟨_, _, _, .mark place t⟩
    · exact .inl ⟨_, _, _, .plain hnone hmark⟩

end Step

def tokens : Grammar Place Char Piece := ⟨Next, Endless, Next.shortens, next_or_endless⟩

theorem source_of_reads {place : Place} {text : Text} {ps : List Piece}
    (h : tokens.Reads place text ps) : ps.flatMap (Piece.source ':') = text := by
  induction h with
  | done => rfl
  | next hnext _ ih => rw [List.flatMap_cons, ih, ← (Next.source hnext).2]

/-- Every q in front of a quote, outside the constructs, starts a token or follows the n that one
starts with. -/
def QuotesApart (text : Text) : Prop :=
  ∀ place q t, tokens.Reached .fresh text place (q :: '\'' :: t) → q = 'q' ∨ q = 'Q' →
    place ≠ .word

/-- The text is rewritten as the rules say: what stands between the marks stays, they are numbered
from left to right, and an error is thrown exactly where the text ends inside a construct. -/
structure Follows (text : Text) : Prop where
  rewrites : ∀ out n, rewritePlaceholders text = .ok (out, n) ↔
    ∃ ps, tokens.Reads .fresh text ps ∧ ps.flatMap (Piece.source ':') = text ∧
      out = emit ':' 0 ps ∧ n = markCount ps
  throws : (∃ e, rewritePlaceholders text = .error e) ↔ tokens.EndsInside .fresh text

theorem QuotesApart.followed {text : Text} (h : QuotesApart text) :
    tokens.Followed pieces (fun _ _ => True) .fresh text where
  next := by
    intro place u c t p place' t' hreached _ hnext
    have hpiece := Next.nextPiece hnext fun hq hhead => by
      obtain ⟨t, rfl⟩ := List.head?_eq_some_iff.mp hhead
      exact h place c t hreached hq
    exact ⟨(), (pieces_step u).mpr hpiece, trivial⟩
  endless := by
    intro place u c t _ _ hendless
    obtain ⟨e, he⟩ := Endless.nextPiece hendless
    exact ⟨e, by simp [pieces, he, Except.map]⟩

/-- A reading has come no further than its first place, or stands behind the first character. -/
theorem reached_suffix {text t : Text} {place : Place} (h : tokens.Reached .fresh text place t) :
    t = text ∧ place = .fresh ∨ t <:+ text.tail := by
  induction h with
  | start => exact .inl ⟨rfl, rfl⟩
  | next _ hnext ih =>
    right
    obtain ⟨hne, rfl⟩ := Next.source hnext
    obtain ⟨c, span, hspan⟩ := List.exists_cons_of_ne_nil hne
    rw [hspan] at ih
    rcases ih with ⟨rfl, -⟩ | hsuffix
    · exact List.suffix_append span _
    · exact (List.suffix_append (c :: span) _).trans hsuffix

/-- A text whose only q in front of a quote is its first character. -/
theorem quotesApart_of_front {text : Text}
    (h : ∀ t ∈ text.tail.tails, ¬ ['q', '\''] <+: t ∧ ¬ ['Q', '\''] <+: t) : QuotesApart text := by
  intro place q t hreached hq
  rcases reached_suffix hreached with ⟨-, rfl⟩ | hsuffix
  · decide
  · have hpre : [q, '\''] <+: q :: '\'' :: t := ⟨t, rfl⟩
    obtain ⟨hlower, hupper⟩ := h _ ((List.mem_tails _ _).mpr hsuffix)
    rcases hq with rfl | rfl
    · exact absurd hpre hlower
    · exact absurd hpre hupper

theorem rewritePlaceholders_eq_ok_iff {text out : Text} {n : ℕ} :
    rewritePlaceholders text = .ok (out, n) ↔
      ∃ ps, pieces.read () text = .ok ps ∧ out = emit ':' 0 ps ∧ n = markCount ps := by
  refine ⟨rewritePlaceholders_pieces, ?_⟩
  rintro ⟨ps, hps, rfl, rfl⟩
  rw [rewritePlaceholders, hps]

theorem rewritePlaceholders_eq_error_iff {text : Text} :
    (∃ e, rewritePlaceholders text = .error e) ↔ ∃ e, pieces.read () text = .error e := by
  unfold rewritePlaceholders
  cases pieces.read () text with
  | ok ps => exact iff_of_false (by simp) (by simp)
  | error e => exact iff_of_true ⟨_, rfl⟩ ⟨e, rfl⟩

/-- Where no word ends in a q in front of a quote, the rewriting follows Oracle's rules. -/
theorem oracle_rewriting_follows_tokens (text : Text) (h : QuotesApart text) : Follows text := by
  have hfollowed := h.followed
  constructor
  · intro out n
    rw [rewritePlaceholders_eq_ok_iff]
    refine exists_congr fun ps => ?_
    rw [hfollowed.read_eq_ok_iff trivial]
    constructor
    · rintro ⟨hreads, hout⟩
      exact ⟨hreads, source_of_reads hreads, hout⟩
    · rintro ⟨hreads, -, hout⟩
      exact ⟨hreads, hout⟩
  · rw [rewritePlaceholders_eq_error_iff]
    exact hfollowed.read_eq_error_iff trivial

/-- An alternate quote with a mark in it, and a comment with one. -/
theorem alternate_quote_follows_tokens : Follows "q'[?]'=?/*?*/".toList :=
  oracle_rewriting_follows_tokens _ (quotesApart_of_front (by decide))

example : rewritePlaceholders "q'[?]'=?/*?*/".toList = .ok ("q'[?]'=:1/*?*/".toList, 1) := by
  decide

end Lexical

end Uniorm.Oracle
