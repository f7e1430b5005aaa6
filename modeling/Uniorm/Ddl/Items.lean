import Uniorm.Ddl.Run

/-! # What one item of a list is

An item that is skipped is gone over character by character: only blanks,
comments and quoted runs are stepped over whole, so a `$` in the middle of a
name is taken for the start of a quoted body. `Skims` is a text as that walk
sees it, in front of the text that follows the item.
-/
namespace Uniorm.Ddl

open Foundation Foundation.Scan Sql Builder

inductive Token where
  | quoted
  /-- A `$` that starts no quoted body, or whose body has no end that is found. -/
  | dollar
  | char (c : Char)
  deriving DecidableEq, Repr

/-- What ends an item of an action list. -/
def Stop (next : Text) : Prop := next.head?.all (fun c => c == ',' || c == ';') = true

/-- A quoted run as the scanner goes over it: a body ends where the bytes of its marker stand. -/
inductive SkippedRun [Dangling] : Text → Text → Prop where
  | quoted {quote : Char} {run text : Text} (hquote : quote ∈ ['\'', '"', '\x60'])
    (hrun : QuotedRun quote run) (hnext : text.head? ≠ some quote) : SkippedRun (quote :: run) text
  | body {tag seen inner text : Text} (htag : tag.all isTagChar = true)
    (hseen : Dangling.bytes (marker tag) = some seen)
    (hfirst : ∀ a b, inner ++ seen = a ++ seen ++ b → b = []) :
    SkippedRun (marker tag ++ inner ++ seen) text

/-- A text in front of `next`, without its blanks. -/
inductive Skims [Dangling] (next : Text) : Text → List Token → Prop where
  | nil : Skims next [] []
  | space {c : Char} {body : Text} {ts : List Token} (hc : isSpace c = true)
    (h : Skims next body ts) : Skims next (c :: body) ts
  | line {opening inner body : Text} {ts : List Token}
    (hopen : opening = ['#'] ∨ opening = ['-', '-']) (hinner : '\n' ∉ inner)
    (h : Skims next ('\n' :: body) ts) : Skims next (opening ++ inner ++ '\n' :: body) ts
  | block {inner body : Text} {ts : List Token} (hinner : CommentRun inner)
    (h : Skims next body ts) : Skims next ('/' :: '*' :: (inner ++ body)) ts
  | quoted {piece body : Text} {ts : List Token} (hpiece : SkippedRun piece (body ++ next))
    (h : Skims next body ts) : Skims next (piece ++ body) (.quoted :: ts)
  | dollar {body reason : Text} {ts : List Token}
    (hnone : dollarLength ('$' :: (body ++ next)) = .error reason) (h : Skims next body ts) :
    Skims next ('$' :: body) (.dollar :: ts)
  | char {c : Char} {body : Text} {ts : List Token} (hquote : quoteStart c = false)
    (hsettled : Settled (c :: (body ++ next))) (h : Skims next body ts) :
    Skims next (c :: body) (.char c :: ts)

def walk : ℕ → List Token → Option ℕ
  | depth, [] => some depth
  | depth, .quoted :: ts => walk depth ts
  | depth, .dollar :: ts => walk depth ts
  | depth, .char c :: ts =>
    if c = ';' ∨ (depth = 0 ∧ (c = ',' ∨ c = ')')) then none
    else walk (if c = '(' then depth + 1 else if c = ')' then depth - 1 else depth) ts

/-- One round of `skip_item`. -/
def skipStep [Dangling] (depth : ℕ) : Reading (ℕ ⊕ Unit) := do
  skipBlanks
  let text ← peek
  match text with
  | [] => pure (.inr ())
  | c :: _ =>
    if c == ';' || (depth = 0 && (c == ',' || c == ')')) then pure (.inr ())
    else if quoteStart c then
      skipQuoted
      pure (.inl depth)
    else
      advance 1
      pure (.inl (if c == '(' then depth + 1 else if c == ')' then depth - 1 else depth))

theorem skipItem_eq [Dangling] : skipItem = loop skipStep 0 := rfl

section Stop
variable {next next' : Text}

theorem Stop.cases (h : Stop next) : next = [] ∨ (∃ r, next = ',' :: r) ∨ ∃ r, next = ';' :: r := by
  cases next with
  | nil => exact .inl rfl
  | cons c r =>
    simp only [Stop, List.head?_cons, Option.all_some, Bool.or_eq_true, beq_iff_eq] at h
    rcases h with rfl | rfl
    · exact .inr (.inl ⟨r, rfl⟩)
    · exact .inr (.inr ⟨r, rfl⟩)

theorem stop_comma (r : Text) : Stop (',' :: r) := rfl

theorem Stop.settled (h : Stop next) : Settled next := by
  rcases h.cases with rfl | ⟨r, rfl⟩ | ⟨r, rfl⟩ <;> exact ⟨rfl, rfl, rfl⟩

/-- What ends an item is none of the characters that go on with what stands in front of it. -/
theorem Stop.head_ne (h : Stop next) {c : Char} (hcomma : c ≠ ',') (hsemi : c ≠ ';') :
    next.head? ≠ some c := by
  rcases h.cases with rfl | ⟨r, rfl⟩ | ⟨r, rfl⟩
  · exact Option.some_ne_none c ∘ Eq.symm
  · exact fun heq => hcomma (Option.some.inj heq).symm
  · exact fun heq => hsemi (Option.some.inj heq).symm

theorem lineComment_cons (c : Char) (text : Text) :
    lineComment (c :: text) = (c == '#' || (c == '-' && text.head? == some '-')) := by
  unfold lineComment
  split
  · rename_i heq
    obtain ⟨rfl, -⟩ := List.cons.inj heq
    rfl
  · rename_i heq
    obtain ⟨rfl, rfl⟩ := List.cons.inj heq
    rfl
  · rename_i hhash hline
    have hne : c ≠ '#' := fun heq => hhash text (by rw [heq])
    by_cases hdash : c = '-'
    · subst hdash
      cases text with
      | nil => rfl
      | cons d ds =>
        have hd : d ≠ '-' := fun heq => hline ds (by rw [heq])
        simp [hd]
    · simp [hne, hdash]

theorem blockComment_cons (c : Char) (text : Text) :
    blockComment (c :: text) = (c == '/' && text.head? == some '*') := by
  unfold blockComment
  split
  · rename_i heq
    obtain ⟨rfl, rfl⟩ := List.cons.inj heq
    rfl
  · rename_i hblock
    by_cases hslash : c = '/'
    · subst hslash
      cases text with
      | nil => rfl
      | cons d ds =>
        have hd : d ≠ '*' := fun heq => hblock ds (by rw [heq])
        simp [hd]
    · simp [hslash]

theorem settled_append {c : Char} {body : Text} (h : Settled (c :: (body ++ next)))
    (hnext : Stop next') : Settled (c :: (body ++ next')) := by
  have hline := h.line
  have hblock := h.block
  cases body with
  | nil =>
    refine ⟨h.space, ?_, ?_⟩
    · rw [lineComment_cons, Bool.or_eq_false_iff] at hline
      have hdash : (next'.head? == some '-') = false :=
        beq_false_of_ne (hnext.head_ne (by decide) (by decide))
      rw [List.nil_append, lineComment_cons, hline.1, hdash, Bool.and_false, Bool.or_false]
    · have hstar : (next'.head? == some '*') = false :=
        beq_false_of_ne (hnext.head_ne (by decide) (by decide))
      rw [List.nil_append, blockComment_cons, hstar, Bool.and_false]
  | cons d ds =>
    refine ⟨h.space, ?_, ?_⟩
    · rw [lineComment_cons] at hline ⊢
      exact hline
    · rw [blockComment_cons] at hblock ⊢
      exact hblock

section SkippedRun
variable [Dangling] {piece text text' : Text}

theorem SkippedRun.quoted_cons (h : SkippedRun piece text) :
    ∃ c cs, piece = c :: cs ∧ quoteStart c = true := by
  cases h with
  | quoted hquote => exact ⟨_, _, rfl, (quoteStart_of_mem hquote).1⟩
  | body => exact ⟨_, _, rfl, rfl⟩

theorem SkippedRun.ne_nil (h : SkippedRun piece text) : piece ≠ [] := by
  obtain ⟨c, cs, rfl, -⟩ := h.quoted_cons
  exact List.cons_ne_nil c cs

/-- A quoted run is one in front of everything that does not go on with it. -/
theorem SkippedRun.before (h : SkippedRun piece text)
    (hhead : text'.head? = text.head? ∨ ∀ q ∈ ['\'', '"', '\x60'], text'.head? ≠ some q) :
    SkippedRun piece text' := by
  cases h with
  | quoted hquote hrun hnext =>
    refine .quoted hquote hrun ?_
    rcases hhead with hsame | hnone
    · rwa [hsame]
    · exact hnone _ hquote
  | body htag hseen hfirst => exact .body htag hseen hfirst

theorem SkippedRun.stop {body : Text} (h : SkippedRun piece (body ++ next)) (hnext : Stop next') :
    SkippedRun piece (body ++ next') := by
  refine h.before ?_
  cases body with
  | nil =>
    right
    intro q hq
    refine hnext.head_ne ?_ ?_ <;> rintro rfl <;> exact absurd hq (by decide)
  | cons d ds => exact .inl rfl

theorem SkippedRun.read_skipQuoted (h : SkippedRun piece text) :
    skipQuoted.read (piece ++ text) = some ((), text) := by
  cases h with
  | quoted hquote hrun hnext =>
    exact (Piece.quoted hquote hrun hnext).read_skipQuoted rfl trivial
  | @body tag seen inner _ htag hseen hfirst =>
    have hne : seen ≠ [] := by
      have hlength := Dangling.length_bytes hseen
      rw [← List.length_pos_iff, hlength]
      exact Nat.succ_pos _
    have hsearch : Dangling.search (marker tag) (inner ++ (seen ++ text)) = some (inner, text) := by
      rw [Dangling.search, hseen, Option.bind_some, ← List.append_assoc]
      exact breakOn_of_first hne hfirst
    have hlength : (marker tag).length + inner.length + (marker tag).length =
        (marker tag ++ inner ++ seen).length := by
      rw [List.length_append, List.length_append, Dangling.length_bytes hseen]
    have hhead : (marker tag ++ inner ++ seen ++ text).head? = some '$' := rfl
    rw [read_skipQuoted_dollar hhead, List.append_assoc, List.append_assoc, dollarLength_marker htag,
      hsearch, ← List.append_assoc, ← List.append_assoc]
    change some ((), (marker tag ++ inner ++ seen ++ text).drop
      ((marker tag).length + inner.length + (marker tag).length)) = _
    rw [hlength, List.drop_left]

end SkippedRun

theorem read_skipQuoted_stray [Dangling] {text reason : Text}
    (h : dollarLength ('$' :: text) = .error reason) :
    skipQuoted.read ('$' :: text) = none := by
  have hhead : ('$' :: text).head? = some '$' := rfl
  rw [read_skipQuoted_dollar hhead, h]
  rfl

/-- Where no `$` is stray, what the walk sees does not depend on what follows the item. -/
theorem Skims.stop [Dangling] {body : Text} {ts : List Token} (h : Skims next body ts)
    (hdollar : .dollar ∉ ts) (hnext : Stop next') : Skims next' body ts := by
  induction h with
  | nil => exact .nil
  | space hc _ ih => exact .space hc (ih hdollar)
  | line hopen hinner _ ih => exact .line hopen hinner (ih hdollar)
  | block hinner _ ih => exact .block hinner (ih hdollar)
  | quoted hpiece _ ih =>
    exact .quoted (hpiece.stop hnext) (ih fun hmem => hdollar (List.mem_cons_of_mem _ hmem))
  | dollar => exact absurd List.mem_cons_self hdollar
  | char hquote hsettled _ ih =>
    exact .char hquote (settled_append hsettled hnext)
      (ih fun hmem => hdollar (List.mem_cons_of_mem _ hmem))

end Stop

def EndsStatement (rest : Text) : Prop := rest = [] ∨ ∃ r, rest = ';' :: r

theorem EndsStatement.stop {rest : Text} (h : EndsStatement rest) : Stop rest := by
  rcases h with rfl | ⟨r, rfl⟩ <;> rfl

theorem read_statementEnd [Dangling] {rest : Text} (hrest : EndsStatement rest) :
    statementEnd.read rest = some ((), rest.tail) := by
  rcases hrest with rfl | ⟨r, rfl⟩
  · exact read_loop_done rfl
  · exact read_loop_done rfl

theorem Settled.read_expect [Dangling] {text : Text} {ch : Char} (h : Settled text)
    (hhead : text.head? = some ch) : (expect ch).read text = some ((), text.drop 1) := by
  rw [expect, read_bind, h.read_eat, if_pos hhead]
  rfl

section Walk
variable {next body : Text} {ts : List Token} {depth : ℕ}

theorem skipsFirst_skipStep [Dangling] (depth : ℕ) : SkipsFirst (skipStep depth) :=
  skipsFirst_skipBlanks.bind _

theorem Settled.read_skipStep [Dangling] {c : Char} {cs : Text} (h : Settled (c :: cs)) (depth : ℕ) :
    (skipStep depth).read (c :: cs) =
      if c = ';' ∨ (depth = 0 ∧ (c = ',' ∨ c = ')')) then some (.inr (), c :: cs)
      else if quoteStart c then (skipQuoted.read (c :: cs)).map fun r => (.inl depth, r.2)
      else some (.inl (if c = '(' then depth + 1 else if c = ')' then depth - 1 else depth), cs) := by
  simp only [skipStep, read_bind, h.read_skipBlanks, Option.bind_some, read_peek, read_ite, read_pure,
    read_advance, Bool.or_eq_true, Bool.and_eq_true, beq_iff_eq, decide_eq_true_eq,
    Option.map_eq_bind, Function.comp_def, List.drop_succ_cons, List.drop_zero]

theorem skipStep_consumes [Dangling] (depth : ℕ) : (skipStep depth).Consumes := by
  intro text s rest h
  have hblanks := h
  rw [skipStep, read_bind] at hblanks
  obtain ⟨⟨u, text'⟩, hskip, -⟩ := Option.bind_eq_some_iff.mp hblanks
  have hsettled := settled_of_skipBlanks hskip
  rw [skipsFirst_skipStep depth text text' hskip hsettled] at h
  refine Nat.lt_of_lt_of_le ?_ (read_length_le hskip)
  cases text' with
  | nil =>
    rw [show (skipStep depth).read [] = some (.inr (), []) from rfl] at h
    cases h
  | cons c cs =>
    rw [hsettled.read_skipStep] at h
    by_cases hstop : c = ';' ∨ (depth = 0 ∧ (c = ',' ∨ c = ')'))
    · rw [if_pos hstop] at h
      cases h
    · rw [if_neg hstop] at h
      by_cases hquote : quoteStart c = true
      · rw [if_pos hquote] at h
        obtain ⟨r, hr, h⟩ := Option.map_eq_some_iff.mp h
        obtain ⟨-, rfl⟩ := Prod.mk.inj h
        exact skipQuoted_consumes (List.cons_ne_nil _ _) hr
      · rw [if_neg hquote] at h
        obtain ⟨-, rfl⟩ := Prod.mk.inj (Option.some.inj h)
        exact Nat.lt_succ_self _

/-- Blanks in front make no difference to the walk. -/
theorem read_skip_of_blanks [Dangling] {text text' : Text}
    (h : skipBlanks.read text = skipBlanks.read text')
    (depth : ℕ) : (loop skipStep depth).read text = (loop skipStep depth).read text' := by
  have hstep : (skipStep depth).read text = (skipStep depth).read text' := by
    rw [skipStep, read_bind, read_bind, h]
  rw [read_loop skipStep_consumes, read_loop skipStep_consumes, hstep]

theorem Stop.read_skip [Dangling] (h : Stop next) : (loop skipStep 0).read next = some ((), next) := by
  rw [read_loop skipStep_consumes]
  rcases h.cases with rfl | ⟨r, rfl⟩ | ⟨r, rfl⟩ <;> rfl

/-- `skip_item` goes over an item whose parentheses are balanced, if no `$` of it is stray. -/
theorem Skims.read_skip [Dangling] (h : Skims next body ts) (hstop : Stop next)
    (hwalk : walk depth ts = some 0) :
    (loop skipStep depth).read (body ++ next) =
      if .dollar ∈ ts then none else some ((), next) := by
  induction h generalizing depth with
  | nil =>
    obtain rfl := Option.some.inj hwalk
    rw [List.nil_append, hstop.read_skip]
    rfl
  | space hc _ ih =>
    rw [← ih hwalk]
    exact read_skip_of_blanks (read_skipBlanks_space hc _) depth
  | line hopen hinner _ ih =>
    rw [← ih hwalk, List.append_assoc, List.cons_append]
    exact read_skip_of_blanks (read_skipBlanks_line hopen hinner _) depth
  | block hinner _ ih =>
    rw [← ih hwalk, List.cons_append, List.cons_append, List.append_assoc]
    exact read_skip_of_blanks (read_skipBlanks_block hinner _) depth
  | @quoted piece body ts hpiece _ ih =>
    obtain ⟨c, cs, rfl, hc⟩ := hpiece.quoted_cons
    have hread := hpiece.read_skipQuoted
    have hstay : ¬ (c = ';' ∨ (depth = 0 ∧ (c = ',' ∨ c = ')'))) := by
      rintro (rfl | ⟨-, rfl | rfl⟩) <;> cases hc
    rw [List.append_assoc, read_loop skipStep_consumes, List.cons_append,
      (settled_of_quoteStart hc _).read_skipStep, if_neg hstay, if_pos hc, ← List.cons_append, hread]
    change (loop skipStep depth).read (body ++ next) = _
    rw [ih hwalk]
    simp
  | @dollar body reason ts hnone _ _ =>
    have hstay : ¬ ('$' = ';' ∨ (depth = 0 ∧ ('$' = ',' ∨ '$' = ')'))) := by
      rintro (heq | ⟨-, heq | heq⟩) <;> cases heq
    rw [List.cons_append, read_loop skipStep_consumes,
      (settled_of_quoteStart rfl _).read_skipStep, if_neg hstay,
      if_pos (show quoteStart '$' = true from rfl), read_skipQuoted_stray hnone, if_pos List.mem_cons_self]
    rfl
  | @char c body ts hquote hsettled _ ih =>
    rw [walk] at hwalk
    by_cases hstay : c = ';' ∨ (depth = 0 ∧ (c = ',' ∨ c = ')'))
    · rw [if_pos hstay] at hwalk
      cases hwalk
    · rw [if_neg hstay] at hwalk
      have hmem : Token.dollar ∈ Token.char c :: ts ↔ Token.dollar ∈ ts := by simp
      rw [List.cons_append, read_loop skipStep_consumes, hsettled.read_skipStep, if_neg hstay, hquote,
        if_neg Bool.false_ne_true]
      simp only [hmem]
      exact ih hwalk

end Walk

end Uniorm.Ddl
