import Uniorm.Ddl.Lead
import Uniorm.Ddl.Skippers
import Uniorm.Ddl.Target

/-! # A value that is read again

What the parser reads as a value it reads as the same value again, in front of
what may stand behind an item of a list. The text of a value is followed from
its first character on: each part of it ends where it did, because the part
behind it begins as it did, or because the list goes on there.
-/
namespace Uniorm.Ddl

open Foundation Foundation.Scan Sql Builder

/-- What stands behind an item of a list. -/
def Closes (rest : Text) : Prop := ∃ c r, rest = c :: r ∧ (c = ',' ∨ c = ')')

/-- What may stand where a part of a value ended: something that begins as what stood there did, or
the end of the item. -/
inductive Follows : Text → Text → Prop where
  | closes {t t' : Text} (h : Closes t') : Follows t t'
  | alike {c : Char} {r r' : Text} (hc : c ∈ [':', '\'', '$', '(']) : Follows (c :: r) (c :: r')

variable {s t t' : Text}

/-- What `skip_quoted` went over is one quoted run. -/
theorem exists_skipped [Dangling] {c : Char} {cs : Text} (hc : quoteStart c = true)
    (h : skipQuoted.read (c :: cs) = some ((), t)) :
    ∃ piece, c :: cs = piece ++ t ∧ SkippedRun piece t := by
  by_cases hdollar : c = '$'
  · subst hdollar
    rcases dollar_cases cs with ⟨tag, s, htext, htag⟩ | ⟨tag, d, s, rfl, htag, hd, hne⟩ | htag
    · rw [htext] at h ⊢
      rw [read_skipQuoted_dollar rfl, dollarLength_marker htag] at h
      cases hsearch : Dangling.search (marker tag) s with
      | none =>
        rw [hsearch] at h
        cases h
      | some r =>
        obtain ⟨seen, hseen, hlength, hbreak⟩ := Dangling.search_eq_some hsearch
        have hpiece : SkippedRun (marker tag ++ r.1 ++ seen) r.2 :=
          .body htag hseen (first_of_breakOn hbreak)
        have hsplit : marker tag ++ s = marker tag ++ r.1 ++ seen ++ r.2 := by
          rw [breakOn_eq hbreak]
          simp
        have hread := hpiece.read_skipQuoted
        rw [← hsplit, read_skipQuoted_dollar rfl, dollarLength_marker htag] at hread
        obtain rfl := (Prod.mk.inj (Option.some.inj (hread.symm.trans h))).2
        exact ⟨_, hsplit, hpiece⟩
    · rw [read_skipQuoted_stray (dollarLength_stray htag hd hne)] at h
      cases h
    · rw [read_skipQuoted_stray (dollarLength_last htag)] at h
      cases h
  · have hmem : c ∈ ['\'', '"', '\x60'] := by
      simpa [quoteStart, hdollar, or_assoc] using hc
    rcases quotedRun_or_unclosed (quoteStart_of_mem hmem).2.2 cs with
      ⟨run, s, rfl, hrun, hnext⟩ | hopen
    · have hpiece : SkippedRun (c :: run) s := .quoted hmem hrun hnext
      have hread := hpiece.read_skipQuoted
      obtain rfl := (Prod.mk.inj (Option.some.inj (hread.symm.trans h))).2
      exact ⟨c :: run, rfl, hpiece⟩
    · have hinside : EndsInside (c :: cs) := .quoted hmem hopen
      have hkept : ∀ tag, marker tag <+: c :: cs → Dangling.Kept (marker tag) := by
        rintro tag ⟨s, hs⟩
        exact absurd (List.cons.inj hs).1.symm hdollar
      rcases hinside.read hkept with ⟨d, ds, -, -, hnone⟩ | ⟨⟨ds, heq⟩, -⟩
      · rw [hnone] at h
        cases h
      · obtain ⟨rfl, -⟩ := List.cons.inj heq
        cases hc

theorem exists_block (h : skipBlock.read ('/' :: '*' :: s) = some ((), t)) :
    ∃ inner, s = inner ++ t ∧ CommentRun inner := by
  simp only [skipBlock, read_bind, read_peek, Option.bind_some, List.drop_succ_cons, List.drop_zero]
    at h
  rcases commentRun_or_open s with ⟨inner, t₀, rfl, hinner⟩ | hopen
  · rw [blockLength_run hinner] at h
    simp only [read_advance, List.drop_succ_cons, List.drop_left] at h
    obtain rfl := (Prod.mk.inj (Option.some.inj h)).2
    exact ⟨inner, rfl, hinner⟩
  · rw [blockLength_open hopen] at h
    cases h

theorem lineComment_congr {c : Char} {cs cs' : Text} (h : cs'.head? = cs.head?) :
    lineComment (c :: cs') = lineComment (c :: cs) := by
  rw [lineComment_cons, lineComment_cons, h]

theorem blockComment_congr {c : Char} {cs cs' : Text} (h : cs'.head? = cs.head?) :
    blockComment (c :: cs') = blockComment (c :: cs) := by
  rw [blockComment_cons, blockComment_cons, h]

theorem head_append {v : Text} (h : v ≠ []) (t t' : Text) : (v ++ t').head? = (v ++ t).head? := by
  obtain ⟨c, cs, rfl⟩ := List.exists_cons_of_ne_nil h
  rfl

/-- A list ends at the same parenthesis, whatever stands behind it. -/
theorem exists_balanced [Dangling] {depth : ℕ} (h : (loop balancedStep depth).read s = some (some (), t)) :
    ∃ v, v ≠ [] ∧ s = v ++ t ∧ ∀ t', (loop balancedStep depth).read (v ++ t') =
    some (some (), t') := by
  induction hn : s.length using Nat.strong_induction_on generalizing s depth with
  | _ n ih =>
    cases s with
    | nil =>
      rw [read_loop balancedStep_consumes] at h
      cases h
    | cons c cs =>
      -- one round, and the rounds behind it
      have hround : ∀ {p s₁ : Text} {depth' : ℕ}, c :: cs = p ++ s₁ → p ≠ [] →
          (loop balancedStep depth').read s₁ = some (some (), t) →
          (∀ v, v ≠ [] → s₁ = v ++ t → ∀ t', (balancedStep depth).read (p ++ (v ++ t')) =
            some (.inl depth', v ++ t')) →
          ∃ v, v ≠ [] ∧ c :: cs = v ++ t ∧ ∀ t', (loop balancedStep depth).read (v ++ t') =
          some (some (), t') := by
        intro p s₁ depth' htext hp hread hstep
        have hlt : s₁.length < n := by
          rw [← hn, htext, List.length_append]
          exact Nat.lt_add_of_pos_left (List.length_pos_of_ne_nil hp)
        obtain ⟨v, hne, rfl, hv⟩ := ih _ hlt hread rfl
        refine ⟨p ++ v, List.append_ne_nil_of_left_ne_nil hp _, by rw [htext, List.append_assoc],
          fun t' => ?_⟩
        rw [List.append_assoc, read_loop balancedStep_consumes, hstep v hne rfl]
        exact hv t'
      rw [read_loop balancedStep_consumes, read_balancedStep] at h
      by_cases hquote : quoteStart c = true
      · rw [if_pos hquote] at h
        obtain ⟨q, hq, hread⟩ := Option.bind_eq_some_iff.mp h
        obtain ⟨⟨u, s₁⟩, hskip, rfl⟩ := Option.map_eq_some_iff.mp hq
        obtain ⟨piece, htext, hpiece⟩ := exists_skipped hquote hskip
        refine hround htext hpiece.ne_nil hread fun v hne hv t' => ?_
        subst hv
        have hmore := hpiece.before (.inl (head_append hne t t'))
        have hagain := hmore.read_skipQuoted
        obtain ⟨d, ds, rfl, hd⟩ := hmore.quoted_cons
        rw [List.cons_append] at hagain ⊢
        rw [read_balancedStep, if_pos hd, hagain]
        rfl
      rw [if_neg hquote] at h
      by_cases hopen : c = '('
      · subst hopen
        exact hround (p := ['(']) rfl (List.cons_ne_nil _ _) h fun v _ _ t' => rfl
      rw [if_neg hopen] at h
      by_cases hclose : c = ')'
      · subst hclose
        rw [if_pos rfl] at h
        by_cases hdepth : depth = 1
        · subst hdepth
          obtain rfl := (Prod.mk.inj (Option.some.inj h)).2
          refine ⟨[')'], List.cons_ne_nil _ _, rfl, fun t' => ?_⟩
          exact read_loop_done rfl
        · rw [if_neg hdepth] at h
          refine hround (p := [')']) rfl (List.cons_ne_nil _ _) h fun v _ _ t' => ?_
          rw [List.singleton_append, read_balancedStep, if_neg hquote, if_neg hopen, if_pos rfl,
            if_neg hdepth]
      rw [if_neg hclose] at h
      by_cases hline : lineComment (c :: cs) = true
      · rw [if_pos hline] at h
        obtain ⟨opening, inner, s₁, hopening, hinner, hend, htext⟩ := exists_lineComment hline
        rw [htext, dropWhile_comment hopening hinner hend] at h
        have hne : opening ++ inner ≠ [] := by
          rcases hopening with rfl | rfl <;> exact List.cons_ne_nil _ _
        refine hround htext hne h fun v hv htail t' => ?_
        subst htail
        have hcomment : lineComment (opening ++ inner ++ (v ++ t')) = true := by
          rcases hopening with rfl | rfl <;> rfl
        rw [head_append hv t' t] at hend
        rw [read_balancedStep_line hcomment, dropWhile_comment hopening hinner hend]
      rw [if_neg hline] at h
      by_cases hblock : blockComment (c :: cs) = true
      · rw [if_pos hblock] at h
        obtain ⟨q, hq, hread⟩ := Option.bind_eq_some_iff.mp h
        obtain ⟨⟨u, s₁⟩, hskip, rfl⟩ := Option.map_eq_some_iff.mp hq
        obtain ⟨more, htext⟩ := exists_blockComment hblock
        rw [htext] at hskip
        obtain ⟨inner, rfl, hinner⟩ := exists_block hskip
        refine hround (p := '/' :: '*' :: inner) htext (List.cons_ne_nil _ _) hread fun v _ _ t' =>
          ?_
        have hagain : skipBlock.read ('/' :: '*' :: (inner ++ (v ++ t'))) = some ((), v ++ t') := by
          simp [skipBlock, blockLength_run hinner]
        rw [List.cons_append, List.cons_append, read_balancedStep, if_neg (by decide),
          if_neg (by decide),
          if_neg (by decide), if_neg (by simp [lineComment_cons]),
          if_pos (by simp [blockComment_cons]),
          hagain]
        rfl
      rw [if_neg hblock] at h
      refine hround (p := [c]) rfl (List.cons_ne_nil _ _) h fun v hne hv t' => ?_
      subst hv
      have hhead := head_append hne t t'
      rw [List.singleton_append, read_balancedStep, if_neg hquote, if_neg hopen, if_neg hclose,
        lineComment_congr hhead, if_neg hline, blockComment_congr hhead, if_neg hblock]

theorem exists_list [Dangling] (h : skipBalanced.read ('(' :: s) = some ((), t)) :
    ∃ v, s = v ++ t ∧ ∀ t', skipBalanced.read ('(' :: (v ++ t')) = some ((), t') := by
  rw [read_skipBalanced_cons] at h
  obtain ⟨⟨a, t₀⟩, hread, h⟩ := Option.bind_eq_some_iff.mp h
  obtain ⟨u, rfl, h⟩ := Option.map_eq_some_iff.mp h
  obtain rfl := (Prod.mk.inj h).2
  obtain ⟨v, -, rfl, hv⟩ := exists_balanced hread
  refine ⟨v, rfl, fun t' => ?_⟩
  rw [read_skipBalanced_cons, hv]
  rfl

/-- The blanks in front of something are the same in front of anything that has none. -/
theorem exists_blanks (h : skipBlanks.read s = some ((), t)) (hne : t ≠ []) :
    ∃ v, s = v ++ t ∧ ∀ t', Settled t' → skipBlanks.read (v ++ t') = some ((), t') := by
  induction hn : s.length using Nat.strong_induction_on generalizing s with
  | _ n ih =>
    have hround : ∀ {p s₁ : Text}, s = p ++ s₁ → p ≠ [] → skipBlanks.read s₁ = some ((), t) →
        (∀ v, s₁ = v ++ t → ∀ t', Settled t' → skipBlanks.read (p ++ (v ++ t')) =
        skipBlanks.read (v ++ t')) →
        ∃ v, s = v ++ t ∧ ∀ t', Settled t' → skipBlanks.read (v ++ t') = some ((), t') := by
      intro p s₁ htext hp hread hstep
      have hlt : s₁.length < n := by
        rw [← hn, htext, List.length_append]
        exact Nat.lt_add_of_pos_left (List.length_pos_of_ne_nil hp)
      obtain ⟨v, rfl, hv⟩ := ih _ hlt hread rfl
      refine ⟨p ++ v, by rw [htext, List.append_assoc], fun t' hsettled => ?_⟩
      rw [List.append_assoc, hstep v rfl t' hsettled]
      exact hv t' hsettled
    cases s with
    | nil =>
      rw [settled_nil.read_skipBlanks] at h
      exact absurd (Prod.mk.inj (Option.some.inj h)).2.symm hne
    | cons c cs =>
      by_cases hspace : isSpace c = true
      · rw [read_skipBlanks_space hspace] at h
        exact hround (p := [c]) rfl (List.cons_ne_nil _ _) h fun v _ t' _ =>
          read_skipBlanks_space hspace _
      by_cases hline : lineComment (c :: cs) = true
      · obtain ⟨opening, inner, s₁, hopening, hinner, hend, htext⟩ := exists_lineComment hline
        rw [htext, read_skipBlanks_comment hopening hinner hend] at h
        have hopened : opening ++ inner ≠ [] := by
          rcases hopening with rfl | rfl <;> exact List.cons_ne_nil _ _
        refine hround htext hopened h fun v hv t' _ => read_skipBlanks_comment hopening hinner ?_
        subst hv
        have hfront : v ≠ [] := by
          rintro rfl
          obtain ⟨d, ds, rfl⟩ := List.exists_cons_of_ne_nil hne
          obtain rfl : d = '\n' := by simpa using hend
          cases (settled_of_skipBlanks h).space
        rwa [head_append hfront t t']
      by_cases hblock : blockComment (c :: cs) = true
      · obtain ⟨more, htext⟩ := exists_blockComment hblock
        rw [htext, read_skipBlanks, read_skipBlank] at h
        obtain ⟨q, hq, hmore⟩ := Option.bind_eq_some_iff.mp h
        obtain ⟨⟨u, s₁⟩, hskip, rfl⟩ := Option.map_eq_some_iff.mp hq
        obtain ⟨inner, rfl, hinner⟩ := exists_block hskip
        exact hround (p := '/' :: '*' :: inner) htext (List.cons_ne_nil _ _) hmore
          fun v _ t' _ => read_skipBlanks_block hinner _
      · have hsettled : Settled (c :: cs) :=
          ⟨by simpa using hspace, by simpa using hline, by simpa using hblock⟩
        rw [hsettled.read_skipBlanks] at h
        obtain rfl := (Prod.mk.inj (Option.some.inj h)).2
        exact ⟨[], rfl, fun t' hsettled => hsettled.read_skipBlanks⟩

theorem quotedName_close {quote : Char} (h : t.head? ≠ some quote) :
    quotedName quote (quote :: t) = some ([], 1) := by
  cases t with
  | nil => simp [quotedName]
  | cons d ds =>
    have hd : d ≠ quote := fun heq => h (congrArg some heq)
    simp [quotedName, hd]

theorem quotedName_doubled (quote : Char) (s : Text) : quotedName quote (quote :: quote :: s) =
    (quotedName quote s).map fun r => (quote :: r.1, r.2 + 2) := by
  simp [quotedName]

theorem quotedName_other {quote c : Char} (h : c ≠ quote) (s : Text) : quotedName quote (c :: s) =
    (quotedName quote s).map fun r => (c :: r.1, r.2 + 1) := by
  cases s with
  | nil => simp [quotedName, h]
  | cons d ds => simp [quotedName, h]

theorem exists_quotedName {quote : Char} {r : Text × ℕ} (h : quotedName quote s = some r) :
    ∃ v t, s = v ++ t ∧ v.length = r.2 ∧ t.head? ≠ some quote ∧
      ∀ t', t'.head? ≠ some quote → quotedName quote (v ++ t') = some r := by
  induction hn : s.length using Nat.strong_induction_on generalizing s r with
  | _ n ih =>
    cases s with
    | nil => cases h
    | cons c cs =>
      by_cases hc : c = quote
      · subst hc
        by_cases hhead : cs.head? = some c
        · obtain ⟨ds, rfl⟩ : ∃ ds, cs = c :: ds := by
            obtain ⟨d, ds, rfl⟩ := List.exists_cons_of_ne_nil (l := cs) (by rintro rfl; cases hhead)
            obtain rfl := Option.some.inj hhead
            exact ⟨ds, rfl⟩
          rw [quotedName_doubled] at h
          obtain ⟨q, hq, rfl⟩ := Option.map_eq_some_iff.mp h
          have hlt : ds.length < n := hn ▸ Nat.lt_succ_of_lt (Nat.lt_succ_self _)
          obtain ⟨v, t, rfl, hlength, hend, hv⟩ := ih _ hlt hq rfl
          refine ⟨c :: c :: v, t, rfl, by rw [List.length_cons, List.length_cons, hlength], hend,
            ?_⟩
          intro t' ht'
          rw [List.cons_append, List.cons_append, quotedName_doubled, hv t' ht', Option.map_some]
        · rw [quotedName_close hhead] at h
          obtain rfl := Option.some.inj h
          exact ⟨[c], cs, rfl, rfl, hhead, fun t' ht' => quotedName_close ht'⟩
      · rw [quotedName_other hc] at h
        obtain ⟨q, hq, rfl⟩ := Option.map_eq_some_iff.mp h
        obtain ⟨v, t, rfl, hlength, hend, hv⟩ := ih _ (hn ▸ Nat.lt_succ_self _) hq rfl
        refine ⟨c :: v, t, rfl, by rw [List.length_cons, hlength], hend, fun t' ht' => ?_⟩
        rw [List.cons_append, quotedName_other hc, hv t' ht', Option.map_some]

def EndsAlike (t t' : Text) : Prop :=
  t'.head? = t.head? ∨ ∃ c, t'.head? = some c ∧ (c = ',' ∨ c = ')')

theorem EndsAlike.any {p : Char → Bool} (h : EndsAlike t t') (hcomma : p ',' = false)
    (hclose : p ')' = false) (ht : t.head?.any p = false) : t'.head?.any p = false := by
  rcases h with hsame | ⟨c, hc, rfl | rfl⟩
  · rwa [hsame]
  · rw [hc]
    exact hcomma
  · rw [hc]
    exact hclose

theorem EndsAlike.ne {q : Char} (h : EndsAlike t t') (hcomma : q ≠ ',') (hclose : q ≠ ')')
    (ht : t.head? ≠ some q) : t'.head? ≠ some q := by
  rcases h with hsame | ⟨c, hc, rfl | rfl⟩
  · rwa [hsame]
  · rw [hc]
    exact fun heq => hcomma (Option.some.inj heq).symm
  · rw [hc]
    exact fun heq => hclose (Option.some.inj heq).symm

theorem EndsAlike.quote (h : EndsAlike t t') :
    t'.head? = t.head? ∨ ∀ q ∈ ['\'', '"', '\x60'], t'.head? ≠ some q := by
  rcases h with hsame | ⟨d, hd, rfl | rfl⟩
  · exact .inl hsame
  · rw [hd]
    simp
  · rw [hd]
    simp

theorem Follows.endsAlike (h : Follows t t') : EndsAlike t t' := by
  cases h with
  | closes h =>
    obtain ⟨c, r, rfl, hc⟩ := h
    exact .inr ⟨c, rfl, hc⟩
  | alike => exact .inl rfl

theorem Follows.settled (h : Follows t t') : Settled t' := by
  cases h with
  | closes h =>
    obtain ⟨c, r, rfl, rfl | rfl⟩ := h <;> exact ⟨rfl, rfl, rfl⟩
  | @alike c r r' hc =>
    simp only [List.mem_cons, List.not_mem_nil, or_false] at hc
    rcases hc with rfl | rfl | rfl | rfl <;> exact ⟨rfl, rfl, rfl⟩

theorem any_identChar_dropWhile (s : Text) :
    (s.dropWhile identChar).head?.any identChar = false := by
  have hnot := List.head?_dropWhile_not identChar s
  cases hhead : (s.dropWhile identChar).head? with
  | none => rfl
  | some d =>
    rw [hhead] at hnot
    simpa using hnot

/-- A name without blanks in front is read again where a token ends as it did. -/
theorem Settled.exists_identifier [Dangling] {name : Text} (hsettled : Settled s)
    (h : identifier.read s = some (name, t)) : ∃ v, v ≠ [] ∧ s = v ++ t ∧
    (∀ t', Settled (v ++ t')) ∧
      ∀ t', EndsAlike t t' → identifier.read (v ++ t') = some (name, t') := by
  by_cases hquote : s.head?.any isNameQuote = true
  · obtain ⟨c, cs, rfl⟩ := List.exists_cons_of_ne_nil (l := s) (by rintro rfl; cases hquote)
    rw [hsettled.read_identifier_name hquote, List.head?_cons, Option.bind_some,
      List.tail_cons] at h
    obtain ⟨r, hr, hmap⟩ := Option.map_eq_some_iff.mp h
    obtain ⟨rfl, hdrop⟩ := Prod.mk.inj hmap
    obtain ⟨v, t₀, rfl, hlength, hend, hv⟩ := exists_quotedName hr
    rw [← hlength, List.drop_succ_cons, List.drop_left] at hdrop
    subst hdrop
    have hstart : quoteStart c = true := by
      rcases Bool.or_eq_true_iff.mp hquote with hc | hc
      · rw [beq_iff_eq.mp hc]
        rfl
      · rw [beq_iff_eq.mp hc]
        rfl
    have hcomma : c ≠ ',' := by
      rintro rfl
      cases hquote
    have hclose : c ≠ ')' := by
      rintro rfl
      cases hquote
    refine ⟨c :: v, List.cons_ne_nil _ _, rfl, fun t' => settled_of_quoteStart hstart _,
      fun t' ht' => ?_⟩
    have hsettled' : Settled (c :: (v ++ t')) := settled_of_quoteStart hstart _
    rw [List.cons_append, hsettled'.read_identifier_name hquote, List.head?_cons, Option.bind_some,
      List.tail_cons, hv t' (ht'.ne hcomma hclose hend), Option.map_some, ← hlength,
      List.drop_succ_cons,
      List.drop_left]
  · have hword : s.head?.any identStart = true := by
      by_contra hnot
      have hnone : identifier.read s = none := by
        simp only [identifier, read_bind, hsettled.read_skipBlanks, Option.bind_some, read_peek,
          read_ite, if_neg hquote, if_neg hnot, read_fail, read_expected, ite_self]
      rw [hnone] at h
      cases h
    rw [hsettled.read_identifier_word hword] at h
    obtain ⟨rfl, rfl⟩ := Prod.mk.inj (Option.some.inj h)
    have hof : wordOf s = s.takeWhile identChar := if_pos hword
    have hdrop : s.drop (wordOf s).length = s.dropWhile identChar :=
      calc s.drop (wordOf s).length
          = (s.takeWhile identChar ++ s.dropWhile identChar).drop
              (s.takeWhile identChar).length := by
            rw [List.takeWhile_append_dropWhile, hof]
        _ = s.dropWhile identChar := List.drop_left
    have hw : Word (wordOf s) := by
      obtain ⟨c, cs, rfl⟩ := List.exists_cons_of_ne_nil (l := s) (by rintro rfl; cases hword)
      refine ⟨?_, hof ▸ List.all_takeWhile⟩
      rw [hof, List.takeWhile_cons_of_pos (identChar_of_identStart hword)]
      exact hword
    rw [hdrop]
    refine ⟨wordOf s, ?_, ?_, fun t' => ?_, fun t' ht' => ?_⟩
    · obtain ⟨c, cs, heq, -⟩ := hw.eq_cons
      rw [heq]
      exact List.cons_ne_nil _ _
    · rw [hof, List.takeWhile_append_dropWhile]
    · obtain ⟨c, cs, heq, hc⟩ := hw.eq_cons
      rw [heq]
      exact settled_of_identStart hc _
    · exact hw.read_identifier (ht'.any rfl rfl (any_identChar_dropWhile s))

/-- A name is read again with the blanks in front of it. -/
theorem exists_identifier [Dangling] {name : Text} (h : identifier.read s = some (name, t)) :
    ∃ v, v ≠ [] ∧ s = v ++ t ∧
      ∀ t', EndsAlike t t' → identifier.read (v ++ t') = some (name, t') := by
  have hread := h
  rw [identifier, read_bind] at hread
  obtain ⟨⟨u, s₁⟩, hskip, -⟩ := Option.bind_eq_some_iff.mp hread
  have hsettled := settled_of_skipBlanks hskip
  have hname : identifier.read s₁ = some (name, t) := by
    rw [← h]
    exact (skipsFirst_identifier s s₁ hskip hsettled).symm
  obtain ⟨v, hne, rfl, hfront, hv⟩ := hsettled.exists_identifier hname
  obtain ⟨b, rfl, hb⟩ := exists_blanks hskip (List.append_ne_nil_of_left_ne_nil hne _)
  refine ⟨b ++ v, List.append_ne_nil_of_right_ne_nil _ hne, (List.append_assoc ..).symm,
    fun t' ht' => ?_⟩
  rw [List.append_assoc, skipsFirst_identifier _ _ (hb _ (hfront t')) (hfront t')]
  exact hv t' ht'

theorem read_dotStep [Dangling] (s : Text) : (dotStep ()).read s = (skipBlanks.read s).bind fun r =>
    if r.2.head? = some '.' then (identifier.read (r.2.drop 1)).map fun q => (.inl (), q.2)
    else some (.inr (), s) := by
  rw [dotStep, read_bind, read_ahead, eat, peekIs]
  simp only [read_bind, Option.bind_assoc, read_peek, read_pure, Option.bind_some]
  cases hskip : skipBlanks.read s with
  | none => rfl
  | some r =>
    obtain ⟨u, t⟩ := r
    by_cases hdot : t.head? = some '.'
    · simp [hdot, hskip, Option.map_eq_bind]
    · simp [hdot]

theorem dotStep_consumes [Dangling] (u : Unit) : (dotStep u).Consumes := by
  intro s u' rest h
  rw [read_dotStep] at h
  obtain ⟨⟨v, t⟩, hskip, h⟩ := Option.bind_eq_some_iff.mp h
  split_ifs at h with hdot
  · obtain ⟨q, hq, h⟩ := Option.map_eq_some_iff.mp h
    obtain ⟨-, rfl⟩ := Prod.mk.inj h
    have hle : q.2.length ≤ (t.drop 1).length := read_length_le hq
    have hlt : (t.drop 1).length < t.length :=
      length_lt_of_drop Nat.one_pos (by rintro rfl; cases hdot)
    exact Nat.lt_of_le_of_lt hle (Nat.lt_of_lt_of_le hlt (read_length_le hskip))
  · cases h

theorem Follows.head_ne_dot (h : Follows t t') : t'.head? ≠ some '.' := by
  cases h with
  | closes h =>
    obtain ⟨c, r, rfl, rfl | rfl⟩ := h <;> exact fun heq => absurd (Option.some.inj heq) (by decide)
  | @alike c r r' hc =>
    intro heq
    obtain rfl := Option.some.inj heq
    exact absurd hc (by decide)

theorem Follows.append (h : Follows t t') (v : Text) : EndsAlike (v ++ t) (v ++ t') := by
  cases v with
  | nil => exact h.endsAlike
  | cons c v => exact .inl rfl

theorem exists_dots [Dangling] (h : skipDots.read s = some ((), t)) :
    ∃ v, s = v ++ t ∧ ∀ t', Follows t t' → skipDots.read (v ++ t') = some ((), t') := by
  rw [skipDots_eq] at h ⊢
  induction hn : s.length using Nat.strong_induction_on generalizing s with
  | _ n ih =>
    rw [read_loop dotStep_consumes, read_dotStep] at h
    obtain ⟨q, hq, hmore⟩ := Option.bind_eq_some_iff.mp h
    obtain ⟨⟨u, w⟩, hskip, hround⟩ := Option.bind_eq_some_iff.mp hq
    by_cases hdot : w.head? = some '.'
    · rw [if_pos hdot] at hround
      obtain ⟨⟨name, s₁⟩, hname, rfl⟩ := Option.map_eq_some_iff.mp hround
      obtain ⟨w', rfl⟩ : ∃ w', w = '.' :: w' := by
        obtain ⟨c, cs, rfl⟩ := List.exists_cons_of_ne_nil (l := w) (by rintro rfl; cases hdot)
        obtain rfl := Option.some.inj hdot
        exact ⟨cs, rfl⟩
      obtain ⟨b, rfl, hb⟩ := exists_blanks hskip (List.cons_ne_nil _ _)
      obtain ⟨p, hp, rfl, hagain⟩ := exists_identifier hname
      have hlt : s₁.length < n := by
        rw [← hn]
        simp only [List.length_append, List.length_cons]
        omega
      obtain ⟨v, rfl, hv⟩ := ih _ hlt hmore rfl
      refine ⟨b ++ '.' :: (p ++ v), by simp, fun t' ht' => ?_⟩
      have htext : b ++ '.' :: (p ++ v) ++ t' = b ++ '.' :: (p ++ (v ++ t')) := by simp
      have hsettled : Settled ('.' :: (p ++ (v ++ t'))) :=
        settled_of_head rfl ⟨by decide, by decide⟩ (by decide) _
      rw [htext, read_loop dotStep_consumes, read_dotStep, hb _ hsettled, Option.bind_some,
        List.head?_cons, if_pos rfl, List.drop_succ_cons, List.drop_zero, hagain _ (ht'.append v)]
      exact hv t' ht'
    · rw [if_neg hdot] at hround
      obtain rfl := Option.some.inj hround
      obtain rfl := (Prod.mk.inj (Option.some.inj hmore)).2
      refine ⟨[], rfl, fun t' ht' => read_loop_done ?_⟩
      rw [List.nil_append, read_dotStep, ht'.settled.read_skipBlanks, Option.bind_some,
        if_neg ht'.head_ne_dot]

theorem not_number_of_dropWhile (cs : Text) : (cs.dropWhile isNumberChar).head?.any isNumberChar =
    false := by
  have hnot := List.head?_dropWhile_not isNumberChar cs
  cases hhead : (cs.dropWhile isNumberChar).head? with
  | none => rfl
  | some d =>
    rw [hhead] at hnot
    simpa using hnot

theorem takeWhile_append {cs t : Text} (h : t.head?.any isNumberChar = false) :
    (cs.takeWhile isNumberChar ++ t).takeWhile isNumberChar = cs.takeWhile isNumberChar := by
  have hall : ∀ c ∈ cs.takeWhile isNumberChar, isNumberChar c = true :=
    List.all_eq_true.mp List.all_takeWhile
  rw [List.takeWhile_append_of_pos hall]
  cases t with
  | nil => exact List.append_nil _
  | cons c t =>
    rw [List.takeWhile_cons_of_neg, List.append_nil]
    rw [Bool.not_eq_true]
    exact h

theorem not_number_of_identStart {c : Char} (hc : identStart c = true) (cs : Text) :
    startsNumber c cs = false := by
  have hdigit : c.isDigit = false := by
    cases hdigit : c.isDigit with
    | false => rfl
    | true =>
      have hlow : 48 ≤ c.toNat ∧ c.toNat ≤ 57 := by
        simpa [Char.isDigit, UInt32.le_iff_toNat_le, Char.ext_iff, ← UInt32.toNat_inj] using hdigit
      have hstart := (identStart_iff c).mp hc
      omega
  have hminus : (c == '-') = false := beq_eq_false_iff_ne.mpr (ne_of_identStart hc rfl)
  have hplus : (c == '+') = false := beq_eq_false_iff_ne.mpr (ne_of_identStart hc rfl)
  rw [startsNumber, hdigit, hminus, hplus]
  rfl

/-- No comment begins with a number. -/
theorem settled_number {c : Char} {cs : Text} (h : startsNumber c cs = true) :
    Settled (c :: cs) := by
  have hspace : isSpace c = false := by
    cases hspace : isSpace c with
    | false => rfl
    | true =>
      simp only [isSpace, Bool.or_eq_true, beq_iff_eq] at hspace
      rcases hspace with ((((rfl | rfl) | rfl) | rfl) | rfl) | rfl <;> cases h
  refine ⟨hspace, ?_, ?_⟩
  · rw [lineComment_cons, Bool.or_eq_false_iff, Bool.and_eq_false_iff]
    constructor
    · refine beq_eq_false_iff_ne.mpr ?_
      rintro rfl
      cases h
    · by_cases hminus : c = '-'
      · subst hminus
        refine .inr (beq_eq_false_iff_ne.mpr ?_)
        cases cs with
        | nil => cases h
        | cons d cs =>
          intro heq
          obtain rfl := Option.some.inj heq
          cases h
      · exact .inl (beq_eq_false_iff_ne.mpr hminus)
  · rw [blockComment_cons, Bool.and_eq_false_iff]
    refine .inl (beq_eq_false_iff_ne.mpr ?_)
    rintro rfl
    cases h

theorem startsNumber_takeWhile {c : Char} {cs : Text} (h : startsNumber c cs = true) (t : Text) :
    startsNumber c (cs.takeWhile isNumberChar ++ t) = true := by
  rw [startsNumber, Bool.or_eq_true, Bool.and_eq_true] at h ⊢
  refine h.imp_right fun ⟨hsign, hdigit⟩ => ⟨hsign, ?_⟩
  cases cs with
  | nil => cases hdigit
  | cons d cs =>
    have hd : isNumberChar d = true := by
      have hdigit : d.isDigit = true := hdigit
      rw [isNumberChar, hdigit]
      rfl
    rw [List.takeWhile_cons_of_pos hd]
    exact hdigit

/-- What a value begins with is read again, and blanks in front of it are not part of it. -/
theorem exists_head [Dangling] (h : valueHead.read s = some ((), t)) :
    ∃ v, v ≠ [] ∧ s = v ++ t ∧ (∀ t', Settled (v ++ t')) ∧
      ∀ t', Follows t t' → valueHead.read (v ++ t') = some ((), t') := by
  cases s with
  | nil => cases h
  | cons c cs =>
    rw [read_valueHead] at h
    by_cases hquote : c = '\'' ∨ c = '$'
    · rw [if_pos hquote] at h
      have hstart : quoteStart c = true := by
        rcases hquote with rfl | rfl <;> rfl
      obtain ⟨piece, htext, hpiece⟩ := exists_skipped hstart h
      obtain ⟨ds, rfl⟩ : ∃ ds, piece = c :: ds := by
        obtain ⟨d, ds, rfl⟩ := List.exists_cons_of_ne_nil hpiece.ne_nil
        obtain rfl := (List.cons.inj htext).1
        exact ⟨ds, rfl⟩
      refine ⟨c :: ds, List.cons_ne_nil _ _, htext, fun t' => settled_of_quoteStart hstart _,
        fun t' ht' => ?_⟩
      have hagain := (hpiece.before ht'.endsAlike.quote).read_skipQuoted
      rw [List.cons_append] at hagain ⊢
      rw [read_valueHead, if_pos hquote, hagain]
    rw [if_neg hquote] at h
    by_cases hnumber : startsNumber c cs = true
    · rw [if_pos hnumber] at h
      have hsplit := List.takeWhile_append_dropWhile (p := isNumberChar) (l := cs)
      have hdrop : cs.drop (cs.takeWhile isNumberChar).length = cs.dropWhile isNumberChar :=
        calc cs.drop (cs.takeWhile isNumberChar).length
            = (cs.takeWhile isNumberChar ++ cs.dropWhile isNumberChar).drop
                (cs.takeWhile isNumberChar).length := by rw [hsplit]
          _ = cs.dropWhile isNumberChar := List.drop_left
      obtain rfl : cs.dropWhile isNumberChar = t := by
        rw [← hdrop]
        exact (Prod.mk.inj (Option.some.inj h)).2
      have hagain := fun t' => startsNumber_takeWhile hnumber t'
      refine ⟨c :: cs.takeWhile isNumberChar, List.cons_ne_nil _ _, congrArg (c :: ·) hsplit.symm,
        fun t' => settled_number (hagain t'), fun t' ht' => ?_⟩
      have hends := ht'.endsAlike.any rfl rfl (not_number_of_dropWhile cs)
      rw [List.cons_append, read_valueHead, if_neg hquote, if_pos (hagain t'),
        takeWhile_append hends,
        List.drop_left]
    rw [if_neg hnumber] at h
    by_cases hopen : c = '('
    · subst hopen
      rw [if_pos rfl] at h
      obtain ⟨v, rfl, hv⟩ := exists_list h
      refine ⟨'(' :: v, List.cons_ne_nil _ _, rfl, fun t' =>
        settled_of_head rfl ⟨by decide, by decide⟩ (by decide) _, fun t' _ => ?_⟩
      have hother : ¬ startsNumber '(' (v ++ t') = true := fun hstart => by cases hstart
      rw [List.cons_append, read_valueHead, if_neg hquote, if_neg hother, if_pos rfl, hv]
    rw [if_neg hopen] at h
    by_cases hword : identStart c = true
    · rw [if_pos hword, skipName, read_bind] at h
      obtain ⟨⟨name, s₁⟩, hname, hdots⟩ := Option.bind_eq_some_iff.mp h
      obtain ⟨v, hne, htext, hsettled, hv⟩ := (settled_of_identStart hword cs).exists_identifier
        hname
      obtain ⟨w, rfl, hw⟩ := exists_dots hdots
      obtain ⟨ds, rfl⟩ : ∃ ds, v = c :: ds := by
        obtain ⟨d, ds, rfl⟩ := List.exists_cons_of_ne_nil hne
        obtain rfl := (List.cons.inj htext).1
        exact ⟨ds, rfl⟩
      refine ⟨c :: ds ++ w, List.cons_ne_nil _ _, by rw [htext, List.append_assoc], fun t' => ?_,
        fun t' ht' => ?_⟩
      · rw [List.append_assoc]
        exact hsettled _
      · have hother : ¬ startsNumber c (ds ++ (w ++ t')) = true := by
          rw [not_number_of_identStart hword]
          exact Bool.false_ne_true
        have hagain := hv _ (ht'.append w)
        rw [List.cons_append] at hagain
        rw [List.append_assoc, List.cons_append, read_valueHead, if_neg hquote, if_neg hother,
          if_neg hopen, if_pos hword, skipName, read_bind,
          hagain]
        exact hw t' ht'
    · rw [if_neg hword] at h
      cases h

theorem read_tailStep [Dangling] (c : Char) (cs : Text) : (tailStep ()).read (c :: cs) =
    if c = ':' ∧ cs.head? = some ':' then (identifier.read (cs.drop 1)).map fun r => (.inl (), r.2)
    else if c = '\'' ∨ c = '$' then (skipQuoted.read (c :: cs)).map fun r => (.inl (), r.2)
    else if c = '(' then (skipBalanced.read (c :: cs)).map fun r => (.inl (), r.2)
    else some (.inr (), c :: cs) := by
  rw [tailStep, read_bind, read_peek, Option.bind_some]
  split
  · rename_i ds heq
    obtain ⟨rfl, rfl⟩ := List.cons.inj heq
    rw [if_pos ⟨rfl, rfl⟩]
    simp only [read_bind, read_advance, read_pure, Option.bind_some, Option.map_eq_bind,
      Function.comp_def, List.drop_succ_cons, List.drop_zero]
  · rename_i d ds hnot heq
    obtain ⟨rfl, rfl⟩ := List.cons.inj heq
    have hcast : ¬ (c = ':' ∧ cs.head? = some ':') := by
      rintro ⟨rfl, hhead⟩
      obtain ⟨d, ds, rfl⟩ := List.exists_cons_of_ne_nil (l := cs) (by rintro rfl; cases hhead)
      obtain rfl := Option.some.inj hhead
      exact hnot ds rfl rfl
    rw [if_neg hcast]
    simp only [Bool.or_eq_true, beq_iff_eq, read_ite, read_bind, read_pure, Option.map_eq_bind,
      Function.comp_def]
  · rename_i heq
    cases heq

/-- Each cast and each call behind a value is read again. -/
theorem exists_tail [Dangling] (h : valueTail.read s = some ((), t)) :
    ∃ v, s = v ++ t ∧ (∀ t', Closes t' → Follows (v ++ t) (v ++ t')) ∧
      ∀ t', Closes t' → valueTail.read (v ++ t') = some ((), t') := by
  rw [valueTail_eq] at h ⊢
  induction hn : s.length using Nat.strong_induction_on generalizing s with
  | _ n ih =>
    have hdone : t = s → ∃ v, s = v ++ t ∧ (∀ t', Closes t' → Follows (v ++ t) (v ++ t')) ∧
        ∀ t', Closes t' → (loop tailStep ()).read (v ++ t') = some ((), t') := by
      rintro rfl
      refine ⟨[], rfl, fun t' ht' => .closes ht', fun t' ht' => ?_⟩
      have hends : EndsValue t' := by
        obtain ⟨c, r, rfl, rfl | rfl⟩ := ht' <;> rfl
      exact valueTail_eq ▸ hends.read_valueTail
    cases s with
    | nil =>
      rw [read_loop tailStep_consumes] at h
      exact hdone (Prod.mk.inj (Option.some.inj h)).2.symm
    | cons c cs =>
      rw [read_loop tailStep_consumes, read_tailStep] at h
      have hround : ∀ {p s₁ : Text}, c :: cs = p ++ s₁ → p ≠ [] → c ∈ [':', '\'', '$', '('] →
          (loop tailStep ()).read s₁ = some ((), t) →
          (∀ t₁, EndsAlike s₁ t₁ → (tailStep ()).read (p ++ t₁) = some (.inl (), t₁)) →
          ∃ v, c :: cs = v ++ t ∧ (∀ t', Closes t' → Follows (v ++ t) (v ++ t')) ∧
            ∀ t', Closes t' → (loop tailStep ()).read (v ++ t') = some ((), t') := by
        intro p s₁ htext hp hc hread hstep
        have hlt : s₁.length < n := by
          rw [← hn, htext, List.length_append]
          exact Nat.lt_add_of_pos_left (List.length_pos_of_ne_nil hp)
        obtain ⟨v, rfl, hfollows, hv⟩ := ih _ hlt hread rfl
        obtain ⟨ps, rfl⟩ : ∃ ps, p = c :: ps := by
          obtain ⟨d, ps, rfl⟩ := List.exists_cons_of_ne_nil hp
          obtain rfl := (List.cons.inj htext).1
          exact ⟨ps, rfl⟩
        refine ⟨c :: ps ++ v, by rw [htext, List.append_assoc], fun t' _ => .alike hc, fun t' ht' =>
          ?_⟩
        rw [List.append_assoc, read_loop tailStep_consumes, hstep _ (hfollows t' ht').endsAlike]
        exact hv t' ht'
      by_cases hcast : c = ':' ∧ cs.head? = some ':'
      · rw [if_pos hcast] at h
        obtain ⟨rfl, hhead⟩ := hcast
        obtain ⟨ds, rfl⟩ : ∃ ds, cs = ':' :: ds := by
          obtain ⟨d, ds, rfl⟩ := List.exists_cons_of_ne_nil (l := cs) (by rintro rfl; cases hhead)
          obtain rfl := Option.some.inj hhead
          exact ⟨ds, rfl⟩
        obtain ⟨q, hq, hmore⟩ := Option.bind_eq_some_iff.mp h
        obtain ⟨⟨name, s₁⟩, hname, rfl⟩ := Option.map_eq_some_iff.mp hq
        obtain ⟨v, -, rfl, hv⟩ := exists_identifier hname
        refine hround (p := ':' :: ':' :: v) rfl (List.cons_ne_nil _ _) (by decide) hmore
          fun t₁ ht₁ => ?_
        rw [List.cons_append, List.cons_append, read_tailStep, if_pos ⟨rfl, rfl⟩,
          List.drop_succ_cons,
          List.drop_zero, hv t₁ ht₁]
        rfl
      rw [if_neg hcast] at h
      by_cases hquote : c = '\'' ∨ c = '$'
      · rw [if_pos hquote] at h
        obtain ⟨q, hq, hmore⟩ := Option.bind_eq_some_iff.mp h
        obtain ⟨⟨u, s₁⟩, hskip, rfl⟩ := Option.map_eq_some_iff.mp hq
        have hstart : quoteStart c = true := by
          rcases hquote with rfl | rfl <;> rfl
        have hmem : c ∈ [':', '\'', '$', '('] := by
          rcases hquote with rfl | rfl <;> decide
        obtain ⟨piece, htext, hpiece⟩ := exists_skipped hstart hskip
        refine hround htext hpiece.ne_nil hmem hmore fun t₁ ht₁ => ?_
        have hagain := (hpiece.before ht₁.quote).read_skipQuoted
        obtain ⟨ds, rfl⟩ : ∃ ds, piece = c :: ds := by
          obtain ⟨d, ds, rfl⟩ := List.exists_cons_of_ne_nil hpiece.ne_nil
          obtain rfl := (List.cons.inj htext).1
          exact ⟨ds, rfl⟩
        have hcolon : ¬ (c = ':' ∧ (ds ++ t₁).head? = some ':') := by
          rintro ⟨rfl, -⟩
          cases hstart
        rw [List.cons_append] at hagain ⊢
        rw [read_tailStep, if_neg hcolon, if_pos hquote, hagain]
        rfl
      rw [if_neg hquote] at h
      by_cases hopen : c = '('
      · subst hopen
        rw [if_pos rfl] at h
        obtain ⟨q, hq, hmore⟩ := Option.bind_eq_some_iff.mp h
        obtain ⟨⟨u, s₁⟩, hskip, rfl⟩ := Option.map_eq_some_iff.mp hq
        obtain ⟨v, rfl, hv⟩ := exists_list hskip
        refine hround (p := '(' :: v) rfl (List.cons_ne_nil _ _) (by decide) hmore fun t₁ _ => ?_
        rw [List.cons_append, read_tailStep_list, hv]
        rfl
      · rw [if_neg hopen] at h
        exact hdone (Prod.mk.inj (Option.some.inj h)).2.symm

def Value [Dangling] (text : Text) : Prop := ∃ s t, value.read s = some (text, t)

theorem Value.again [Dangling] {text rest : Text} (h : Value text) (hrest : Closes rest) :
    Settled (text ++ rest) ∧ value.read (text ++ rest) = some (text, rest) := by
  obtain ⟨s, t, h⟩ := h
  rw [value, read_bind] at h
  obtain ⟨⟨u, w⟩, hskip, hread⟩ := Option.bind_eq_some_iff.mp h
  rw [read_taken, read_bind] at hread
  obtain ⟨⟨u', t₀⟩, hboth, htext⟩ := Option.map_eq_some_iff.mp hread
  obtain ⟨⟨u'', s₁⟩, hhead, htail⟩ := Option.bind_eq_some_iff.mp hboth
  obtain ⟨v, hne, rfl, hsettled, hv⟩ := exists_head hhead
  obtain ⟨x, rfl, hfollows, hx⟩ := exists_tail htail
  obtain ⟨htaken, rfl⟩ := Prod.mk.inj htext
  have hvalue : v ++ x = text := by
    rw [← htaken, ← List.append_assoc, List.length_append, Nat.add_sub_cancel, List.take_left]
  subst hvalue
  have hfront := hsettled (x ++ rest)
  rw [← List.append_assoc] at hfront
  refine ⟨hfront, ?_⟩
  rw [value, read_bind, hfront.read_skipBlanks, Option.bind_some, read_taken, List.append_assoc,
    read_bind,
    hv _ (hfollows rest hrest), Option.bind_some, hx rest hrest, Option.map_some,
    ← List.append_assoc,
    List.length_append, Nat.add_sub_cancel, List.take_left]

theorem value_digits [Dangling] {digits : Text} (hne : digits ≠ [])
    (hdigits : ∀ c ∈ digits, c.isDigit = true) : Value digits := by
  obtain ⟨c, cs, rfl⟩ := List.exists_cons_of_ne_nil hne
  obtain ⟨hc, hcs⟩ := List.forall_mem_cons.mp hdigits
  have hstart : startsNumber c cs = true := by
    rw [startsNumber, hc]
    rfl
  have hquote : ¬ (c = '\'' ∨ c = '$') := by
    rintro (rfl | rfl) <;> cases hc
  have hall : cs.takeWhile isNumberChar = cs := by
    refine List.takeWhile_eq_self_iff.mpr fun d hd => ?_
    rw [isNumberChar, hcs d hd]
    rfl
  have hhead : valueHead.read (c :: cs) = some ((), []) := by
    rw [read_valueHead, if_neg hquote, if_pos hstart, hall, List.drop_length]
  have hends : EndsValue [] := rfl
  refine ⟨c :: cs, [], ?_⟩
  rw [value, read_bind, (settled_number hstart).read_skipBlanks, Option.bind_some, read_taken,
    read_bind,
    hhead, Option.bind_some, hends.read_valueTail, Option.map_some, List.length_nil, Nat.sub_zero,
    List.take_length]

end Uniorm.Ddl
