import Uniorm.Libpq.Lexical

/-! # The parameters the server reads in a rewritten text

The rewritten text is read by the rules of the server again. A number stands
where its mark stood and is read as a parameter exactly when no word and no
lone dollar ends in front of the mark and no digit follows it: nothing else in
the text is read differently for the marks having been replaced.
-/
namespace Uniorm.Libpq.Lexical

open Foundation Sql

section Reading
variable {params w w' : Bool} {t t' after after' : Text} {p : Piece} {k k' : Construct}

theorem Opens.eq_opening (h : Opens w t k after) : t = k.opening ++ after := by
  cases h <;> simp [Construct.opening]

theorem Opens.before (h : Opens w t k after) (x : Text) : Opens w (k.opening ++ x) k x := by
  cases h with
  | lineComment => exact .lineComment _ x
  | blockComment => exact .blockComment _ x
  | single => exact .single _ x
  | double => exact .double _ x
  | escapeString he => exact .escapeString he x
  | @dollarQuoted tag htag =>
    have hopens := Opens.dollarQuoted htag x
    simpa [Construct.opening] using hopens

theorem Opens.unique (h : Opens w t k after) (h' : Opens w t k' after') :
    k = k' ∧ after = after' := by
  cases h with
  | lineComment => cases h'; exact ⟨rfl, rfl⟩
  | blockComment => cases h'; exact ⟨rfl, rfl⟩
  | single =>
    cases h' with
    | single => exact ⟨rfl, rfl⟩
    | escapeString he => simp at he
  | double =>
    cases h' with
    | double => exact ⟨rfl, rfl⟩
    | escapeString he => simp at he
  | escapeString he =>
    obtain rfl | rfl := he
    · cases h'; exact ⟨rfl, rfl⟩
    · cases h'; exact ⟨rfl, rfl⟩
  | @dollarQuoted tag htag =>
    generalize htext : '$' :: (tag ++ '$' :: after) = text at h'
    cases h' with
    | lineComment => simp at htext
    | blockComment => simp at htext
    | single => simp at htext
    | double => simp at htext
    | escapeString he => simp [← (List.cons.inj htext).1] at he
    | @dollarQuoted tag' htag' =>
      have htail := (List.cons.inj htext).2
      have hlen := congrArg dollarDelimiter htail
      rw [dollarDelimiter_of_tag htag, dollarDelimiter_of_tag htag'] at hlen
      obtain ⟨rfl, hrest⟩ := List.append_inj htail (by omega)
      exact ⟨rfl, (List.cons.inj hrest).2⟩

theorem not_opens_mark (w : Bool) (t : Text) (k : Construct) (after : Text) :
    ¬ Opens w ('?' :: t) k after := by
  intro h
  cases h with
  | escapeString he => simp at he

/-- Digits behind a dollar are no tag. -/
theorem not_opens_digits {digits rest : Text} (hne : digits ≠ [])
    (hdigits : ∀ c ∈ digits, c.isDigit = true) (k : Construct) (after : Text) :
    ¬ Opens w ('$' :: (digits ++ rest)) k after := by
  intro h
  obtain ⟨d, ds, rfl⟩ := List.exists_cons_of_ne_nil hne
  have hd := hdigits d List.mem_cons_self
  generalize htext : '$' :: (d :: ds ++ rest) = text at h
  cases h with
  | lineComment => simp at htext
  | blockComment => simp at htext
  | single => simp at htext
  | double => simp at htext
  | escapeString he => simp [← (List.cons.inj htext).1] at he
  | @dollarQuoted tag htag =>
    have htail := (List.cons.inj htext).2
    cases tag with
    | nil =>
      obtain ⟨rfl, -⟩ := List.cons.inj htail
      exact absurd hd (by decide)
    | cons c tag =>
      obtain ⟨rfl, -⟩ := List.cons.inj htail
      rw [htag.first _ rfl] at hd
      cases hd

theorem Next.source (h : Next params w t p w' t') :
    p.source '$' ++ t' = t ∧ p.source '$' ≠ [] := by
  cases h with
  | construct hopens hsplit _ =>
    rw [hopens.eq_opening, hsplit]
    refine ⟨by simp [Piece.source], ?_⟩
    cases hopens <;> simp [Piece.source, Construct.opening]
  | pair => exact ⟨rfl, List.cons_ne_nil _ _⟩
  | mark => exact ⟨rfl, List.cons_ne_nil _ _⟩
  | param => exact ⟨rfl, List.cons_ne_nil _ _⟩
  | plain => exact ⟨rfl, List.cons_ne_nil _ _⟩

/-- The digits of a parameter are all that follow the dollar. -/
theorem digits_unique {digits digits' rest rest' : Text} (h : digits ++ rest = digits' ++ rest')
    (hdigits : ∀ c ∈ digits, c.isDigit = true) (hrest : ∀ c ∈ rest.head?, c.isDigit = false)
    (hdigits' : ∀ c ∈ digits', c.isDigit = true) (hrest' : ∀ c ∈ rest'.head?, c.isDigit = false) :
    digits = digits' ∧ rest = rest' := by
  have htake : ∀ {ds r : Text}, (∀ c ∈ ds, c.isDigit = true) → (∀ c ∈ r.head?, c.isDigit = false) →
      (ds ++ r).takeWhile Char.isDigit = ds := by
    intro ds r hds hr
    rw [List.takeWhile_append_of_pos hds]
    cases r with
    | nil => simp
    | cons c r => simp [hr c rfl]
  have hsame : digits = digits' := by
    rw [← htake hdigits hrest, h, htake hdigits' hrest']
  subst hsame
  exact ⟨rfl, List.append_cancel_left h⟩

theorem Next.unique {p₁ p₂ : Piece} {w₁ w₂ : Bool} {t₁ t₂ : Text} (h₁ : Next params w t p₁ w₁ t₁)
    (h₂ : Next params w t p₂ w₂ t₂) : p₁ = p₂ ∧ w₁ = w₂ ∧ t₁ = t₂ := by
  cases h₁ with
  | construct hopens hsplit hclosed =>
    cases h₂ with
    | construct hopens' hsplit' hclosed' =>
      obtain ⟨rfl, rfl⟩ := hopens.unique hopens'
      have hskip := (skipped_iff hopens).mpr ⟨hsplit, hclosed⟩
      rw [(skipped_iff hopens).mpr ⟨hsplit', hclosed'⟩] at hskip
      obtain ⟨rfl, rfl⟩ := Prod.mk.inj (Option.some.inj hskip)
      exact ⟨rfl, rfl, rfl⟩
    | pair => exact absurd hopens (not_opens_mark _ _ _ _)
    | mark => exact absurd hopens (not_opens_mark _ _ _ _)
    | param _ hne hdigits => exact absurd hopens (not_opens_digits hne hdigits _ _)
    | plain hnone => exact absurd hopens (hnone _ _)
  | pair =>
    cases h₂ with
    | construct hopens => exact absurd hopens (not_opens_mark _ _ _ _)
    | pair => exact ⟨rfl, rfl, rfl⟩
    | mark _ hmark => exact absurd rfl hmark
    | plain _ hmark => exact absurd rfl hmark
  | mark _ hmark =>
    cases h₂ with
    | construct hopens => exact absurd hopens (not_opens_mark _ _ _ _)
    | pair => exact absurd rfl hmark
    | mark => exact ⟨rfl, rfl, rfl⟩
    | plain _ hmark => exact absurd rfl hmark
  | param hparams hne hdigits hrest =>
    generalize htext : '$' :: (_ ++ t₁) = text at h₂
    cases h₂ with
    | construct hopens => exact absurd (htext ▸ hopens) (not_opens_digits hne hdigits _ _)
    | pair => simp at htext
    | mark => simp at htext
    | param _ _ hdigits' hrest' =>
      obtain ⟨rfl, rfl⟩ := digits_unique (List.cons.inj htext).2 hdigits hrest hdigits' hrest'
      exact ⟨rfl, rfl, rfl⟩
    | plain _ _ hparam =>
      obtain ⟨rfl, rfl⟩ := List.cons.inj htext
      obtain ⟨d, ds, rfl⟩ := List.exists_cons_of_ne_nil hne
      exact absurd ⟨hparams, rfl, rfl, d, rfl, hdigits d List.mem_cons_self⟩ hparam
  | plain hnone hmark hparam =>
    generalize htext : _ :: t₁ = text at h₂
    cases h₂ with
    | construct hopens => exact absurd (htext ▸ hopens) (hnone _ _)
    | pair => exact absurd (List.cons.inj htext).1 hmark
    | mark => exact absurd (List.cons.inj htext).1 hmark
    | param hparams hne hdigits =>
      obtain ⟨rfl, rfl⟩ := List.cons.inj htext
      obtain ⟨d, ds, rfl⟩ := List.exists_cons_of_ne_nil hne
      exact absurd ⟨hparams, rfl, rfl, d, rfl, hdigits d List.mem_cons_self⟩ hparam
    | plain =>
      obtain ⟨rfl, rfl⟩ := List.cons.inj htext
      exact ⟨rfl, rfl, rfl⟩

theorem Reads.nil_inv {ps : List Piece} (h : Reads params w [] ps) : ps = [] := by
  cases h with
  | done => rfl
  | next hnext => exact absurd hnext.shortens (Nat.not_lt_zero _)

theorem Reads.cons_inv {ps : List Piece} (hnext : Next params w t p w' t')
    (h : Reads params w t ps) : ∃ qs, ps = p :: qs ∧ Reads params w' t' qs := by
  cases h with
  | done => exact absurd hnext.shortens (Nat.not_lt_zero _)
  | next hfirst hrest =>
    obtain ⟨rfl, rfl, rfl⟩ := hfirst.unique hnext
    exact ⟨_, rfl, hrest⟩

theorem Reads.swapped {ps : List Piece} (h : Reads params w t ps) (n : ℕ) :
    Swapped '$' t (emit '$' n ps) := by
  cases h with
  | done => exact .inl rfl
  | @next _ _ _ t' p ps hnext _ =>
    obtain ⟨hsource, hne⟩ := hnext.source
    obtain ⟨c, cs, hcs⟩ := List.exists_cons_of_ne_nil hne
    rw [← hsource]
    cases p with
    | mark => exact .inr ⟨rfl, rfl⟩
    | pair => exact .inl rfl
    | param digits => exact .inl rfl
    | copied s =>
      left
      rw [Piece.source] at hcs
      simp [Piece.written, Piece.source, hcs]

/-- The end of a construct does not move when a mark behind it is replaced. -/
theorem Construct.Closed.swapped {body rest rest' : Text} (hopens : Opens w t k after)
    (hclosed : k.Closed body rest) (h : Swapped '$' rest rest') : k.Closed body rest' := by
  cases hopens with
  | lineComment =>
    refine ⟨hclosed.1, ?_⟩
    rcases h with h | ⟨h, -⟩
    · rw [h]
      exact hclosed.2
    · exact absurd (hclosed.2 '?' h) (by decide)
  | blockComment => exact hclosed
  | single => exact ⟨hclosed.1, h.head?_ne (by decide) hclosed.2⟩
  | double => exact ⟨hclosed.1, h.head?_ne (by decide) hclosed.2⟩
  | escapeString => exact ⟨hclosed.1, h.head?_ne (by decide) hclosed.2⟩
  | @dollarQuoted tag =>
    obtain ⟨content, rfl, hfirst⟩ := hclosed
    refine ⟨content, rfl, fun a b hab => ?_⟩
    by_contra hlt
    -- a delimiter before this one ends within the body
    have hshort : (a ++ ('$' :: tag ++ ['$'])).length ≤ (content ++ ('$' :: tag ++ ['$'])).length := by
      simp only [List.length_append]
      omega
    obtain ⟨b', hb'⟩ := List.prefix_of_prefix_length_le
      (hab ▸ List.prefix_append _ b) (List.prefix_append _ rest') hshort
    have hsame : content ++ ('$' :: tag ++ ['$']) ++ rest =
        a ++ ('$' :: tag ++ ['$']) ++ (b' ++ rest) := by
      rw [← hb', List.append_assoc]
    exact hlt (hfirst a (b' ++ rest) hsame)

/-- A construct is read as before. -/
theorem Next.construct_swapped {body rest rest' : Text} (hopens : Opens w t k after)
    (hclosed : k.Closed body rest) (h : Swapped '$' rest rest') :
    Next params w (k.opening ++ body ++ rest') (.copied (k.opening ++ body)) false rest' := by
  have hbefore := hopens.before (body ++ rest')
  rw [← List.append_assoc] at hbefore
  exact .construct hbefore rfl (hclosed.swapped hopens h)

theorem reads_questionMark_iff {k : ℕ} {l : List (ℕ × Text)} :
    (∃ qs, Reads params w ('?' :: t) qs ∧ paramOffsets '$' k qs = l) ↔
      ∃ qs, Reads params false t qs ∧ paramOffsets '$' (k + 1) qs = l := by
  induction hn : t.length using Nat.strongRecOn generalizing w t k with
  | ind n ih =>
    by_cases hpair : t.head? = some '?'
    · obtain ⟨t, rfl⟩ := List.head?_eq_some_iff.mp hpair
      have hlt : t.length < n := by
        rw [← hn]
        exact Nat.lt_succ_self _
      rw [ih t.length hlt rfl]
      constructor
      · rintro ⟨qs, hqs, hl⟩
        obtain ⟨qs, rfl, hrest⟩ := hqs.cons_inv (.pair w t)
        exact ⟨qs, hrest, hl⟩
      · rintro ⟨qs, hqs, hl⟩
        exact ⟨.pair :: qs, .next (.pair w t) hqs, hl⟩
    · constructor
      · rintro ⟨qs, hqs, hl⟩
        obtain ⟨qs, rfl, hrest⟩ := hqs.cons_inv (.mark w hpair)
        exact ⟨qs, hrest, hl⟩
      · rintro ⟨qs, hqs, hl⟩
        exact ⟨.mark :: qs, .next (.mark w hpair) hqs, hl⟩

/-- A mark here stands behind no word and in front of no digit, and none stands behind a dollar
here. -/
structure CleanAt (inWord : Bool) (t : Text) : Prop where
  mark : ∀ rest, t = '?' :: rest → rest.head? ≠ some '?' →
    inWord = false ∧ ∀ d ∈ rest.head?, d.isDigit = false
  dollar : ∀ rest, t = '$' :: '?' :: rest → rest.head? = some '?'

theorem cleanAt_mark {rest : Text} (h : ∀ d ∈ rest.head?, d.isDigit = false) :
    CleanAt false ('?' :: rest) where
  mark _ htext _ := ⟨rfl, (List.cons.inj htext).2 ▸ h⟩
  dollar _ htext := absurd (List.cons.inj htext).1 (by decide)

theorem cleanAt_of_ne {c : Char} {rest : Text} (hmark : c ≠ '?') (hdollar : c ≠ '$') (w : Bool) :
    CleanAt w (c :: rest) where
  mark _ htext := absurd (List.cons.inj htext).1 hmark
  dollar _ htext := absurd (List.cons.inj htext).1 hdollar

/-- All marks from a place on are clean. -/
def CleanFrom (params inWord : Bool) (t : Text) : Prop :=
  ∀ w' t', From params inWord t w' t' → CleanAt w' t'

theorem cleanFrom_iff (h : Next params w t p w' t') :
    CleanFrom params w t ↔ CleanAt w t ∧ CleanFrom params w' t' := by
  constructor
  · intro hclean
    exact ⟨hclean _ _ (.here w t), fun _ _ hfrom => hclean _ _ (.later h hfrom)⟩
  · rintro ⟨hhere, hlater⟩ w'' t'' hfrom
    cases hfrom with
    | here => exact hhere
    | later hnext hrest =>
      obtain ⟨-, rfl, rfl⟩ := hnext.unique h
      exact hlater _ _ hrest

theorem cleanFrom_nil (params w : Bool) : CleanFrom params w [] := by
  intro w' t' hfrom
  cases hfrom with
  | here => exact ⟨by simp, by simp⟩
  | later hnext => exact absurd hnext.shortens (Nat.not_lt_zero _)

/-- Where what is written begins with a word and a dollar, so does the text, or a mark stands right
behind the word. -/
theorem dollar_of_emit {tag y : Text} {n : ℕ} {ps : List Piece} (hreads : Reads params w t ps)
    (htag : ∀ c ∈ tag, isIdentifierChar c = true) (hemit : emit '$' n ps = tag ++ '$' :: y) :
    (∃ y', t = tag ++ '$' :: y') ∨
    (∃ w' rest, From params w t w' ('?' :: rest) ∧ rest.head? ≠ some '?' ∧
      (tag = [] → w' = w ∧ t = '?' :: rest) ∧ (tag ≠ [] → w' = true)) ∧
    ∀ k, (k + tag.length, numeral (n + 1)) ∈ markOffsets '$' k n ps := by
  induction tag generalizing w t ps with
  | nil =>
    cases hreads with
    | done => simp at hemit
    | @next _ w' _ t' p ps hnext _ =>
      cases p with
      | mark =>
        cases hnext with
        | mark _ hlone =>
          exact .inr ⟨⟨w, _, .here w _, hlone, fun _ => ⟨rfl, rfl⟩, fun h => absurd rfl h⟩,
            fun k => List.mem_cons_self⟩
      | pair => simp [Piece.written] at hemit
      | param digits => exact .inl ⟨_, hnext.source.1.symm⟩
      | copied s =>
        obtain ⟨hsource, hne⟩ := hnext.source
        obtain ⟨c, cs, rfl⟩ := List.exists_cons_of_ne_nil hne
        simp only [emit_cons, Piece.written, List.cons_append, List.nil_append] at hemit
        obtain ⟨rfl, -⟩ := List.cons.inj hemit
        exact .inl ⟨_, hsource.symm⟩
  | cons c tag ih =>
    have hc : isIdentifierChar c = true := htag c List.mem_cons_self
    cases hreads with
    | done => simp at hemit
    | @next _ w' _ t' p ps hnext hrest =>
      rw [emit_cons, List.cons_append] at hemit
      cases hnext with
      | construct hopens _ _ =>
        exfalso
        cases hopens with
        | lineComment => exact absurd hc (by rw [← (List.cons.inj hemit).1]; decide)
        | blockComment => exact absurd hc (by rw [← (List.cons.inj hemit).1]; decide)
        | single => exact absurd hc (by rw [← (List.cons.inj hemit).1]; decide)
        | double => exact absurd hc (by rw [← (List.cons.inj hemit).1]; decide)
        | escapeString he =>
          have htail := (List.cons.inj hemit).2
          cases tag with
          | nil => exact absurd (List.cons.inj htail).1 (by decide)
          | cons d tag =>
            have hd := htag d (by simp)
            exact absurd hd (by rw [← (List.cons.inj htail).1]; decide)
        | dollarQuoted => exact absurd hc (by rw [← (List.cons.inj hemit).1]; decide)
      | pair => exact absurd hc (by rw [← (List.cons.inj hemit).1]; decide)
      | mark => exact absurd hc (by rw [← (List.cons.inj hemit).1]; decide)
      | param => exact absurd hc (by rw [← (List.cons.inj hemit).1]; decide)
      | @plain _ x _ hopens hmark hparam =>
        obtain ⟨rfl, htail⟩ := List.cons.inj hemit
        have hword : inWordAfter w x = true := by simp [inWordAfter, hc]
        rcases ih hrest (fun d hd => htag d (List.mem_cons_of_mem _ hd)) htail with
          ⟨y', rfl⟩ | ⟨⟨w', rest, hfrom, hlone, hempty, hmore⟩, hmem⟩
        · exact .inl ⟨y', rfl⟩
        · refine .inr ⟨⟨w', rest, .later (.plain hopens hmark hparam) hfrom, hlone,
            fun h => absurd h (List.cons_ne_nil _ _), fun _ => ?_⟩, fun k => ?_⟩
          · by_cases hnil : tag = []
            · rw [(hempty hnil).1, hword]
            · exact hmore hnil
          · have hlater := hmem (k + 1)
            rw [Nat.add_assoc, Nat.add_comm 1] at hlater
            exact hlater

/-- A character that opens nothing in the text opens a construct in what is written only if a mark
follows that makes it a tag. -/
theorem opens_of_emit {c : Char} {o : Text}
    (hnone : ∀ k after, ¬ Opens w (c :: t) k after) (hswapped : Swapped '$' t o)
    (hopens : Opens w (c :: o) k after) :
    c = '$' ∧ w = false ∧ ∃ tag, IsTag tag ∧ o = tag ++ '$' :: after ∧ k = .dollarQuoted tag := by
  have hhead : ∀ {d : Char} {x : Text}, d ≠ '$' → o = d :: x → ∃ x', t = d :: x' := by
    rintro d x hd rfl
    rcases hswapped with h | ⟨-, h⟩
    · exact List.head?_eq_some_iff.mp h.symm
    · exact absurd (Option.some.inj h) hd
  generalize htext : c :: o = text at hopens
  cases hopens with
  | lineComment =>
    obtain ⟨rfl, ho⟩ := List.cons.inj htext
    obtain ⟨x, rfl⟩ := hhead (by decide) ho
    exact absurd (Opens.lineComment w x) (hnone _ _)
  | blockComment =>
    obtain ⟨rfl, ho⟩ := List.cons.inj htext
    obtain ⟨x, rfl⟩ := hhead (by decide) ho
    exact absurd (Opens.blockComment w x) (hnone _ _)
  | single =>
    obtain ⟨rfl, -⟩ := List.cons.inj htext
    exact absurd (Opens.single w t) (hnone _ _)
  | double =>
    obtain ⟨rfl, -⟩ := List.cons.inj htext
    exact absurd (Opens.double w t) (hnone _ _)
  | escapeString he =>
    obtain ⟨rfl, ho⟩ := List.cons.inj htext
    obtain ⟨x, rfl⟩ := hhead (by decide) ho
    exact absurd (Opens.escapeString he x) (hnone _ _)
  | @dollarQuoted tag htag =>
    obtain ⟨rfl, ho⟩ := List.cons.inj htext
    exact ⟨rfl, rfl, tag, htag, ho, rfl⟩

/-- The server finds the numbers where the marks stood. -/
def Means (inWord : Bool) (k n : ℕ) (ps : List Piece) : Prop :=
  ∃ qs, Reads true inWord (emit '$' n ps) qs ∧ paramOffsets '$' k qs = markOffsets '$' k n ps

section Mark
variable {rest : Text} {k n : ℕ} {ps : List Piece}

theorem means_mark : Means w k n (.mark :: ps) ↔
    ∃ qs, Reads true w ('$' :: (numeral (n + 1) ++ emit '$' (n + 1) ps)) qs ∧
      paramOffsets '$' k qs = (k, numeral (n + 1)) ::
        markOffsets '$' (k + (1 + (numeral (n + 1)).length)) (n + 1) ps := by
  simp [Means, markOffsets, Piece.written, Piece.marks, Nat.add_comm]

/-- Behind a word the dollar goes on with the word, and no parameter begins at it. -/
theorem not_means_inWord : ¬ Means true k n (.mark :: ps) := by
  rw [means_mark]
  rintro ⟨qs, hqs, hl⟩
  obtain ⟨qs, rfl, -⟩ := hqs.cons_inv (.plain not_opens_dollar (by decide) (by simp))
  have hmem : (k, numeral (n + 1)) ∈ paramOffsets '$' (k + 1) qs := by
    change paramOffsets '$' (k + 1) qs = _ at hl
    rw [hl]
    exact List.mem_cons_self
  exact absurd (le_of_mem_paramOffsets hmem) (Nat.not_succ_le_self k)

/-- A digit behind the number belongs to the parameter. -/
theorem not_means_digit {d : Char} (hhead : (emit '$' (n + 1) ps).head? = some d)
    (hd : d.isDigit = true) : ¬ Means false k n (.mark :: ps) := by
  rw [means_mark]
  rintro ⟨qs, hqs, hl⟩
  obtain ⟨x, hx⟩ := List.head?_eq_some_iff.mp hhead
  have hsplit := List.takeWhile_append_dropWhile (p := Char.isDigit) (l := emit '$' (n + 1) ps)
  have hmore : (emit '$' (n + 1) ps).takeWhile Char.isDigit ≠ [] := by
    rw [hx, List.takeWhile_cons_of_pos hd]
    exact List.cons_ne_nil _ _
  have hnext : Next true false ('$' :: (numeral (n + 1) ++ emit '$' (n + 1) ps))
      (.param (numeral (n + 1) ++ (emit '$' (n + 1) ps).takeWhile Char.isDigit)) false
      ((emit '$' (n + 1) ps).dropWhile Char.isDigit) := by
    have htext : numeral (n + 1) ++ emit '$' (n + 1) ps =
        numeral (n + 1) ++ (emit '$' (n + 1) ps).takeWhile Char.isDigit ++
          (emit '$' (n + 1) ps).dropWhile Char.isDigit := by
      rw [List.append_assoc, hsplit]
    rw [htext]
    refine .param rfl (by simp [hmore]) ?_ ?_
    · intro c hc
      rcases List.mem_append.mp hc with hc | hc
      · exact isDigit_of_mem_numeral hc
      · exact List.mem_takeWhile_imp hc
    · intro c hc
      have hstop := List.head?_dropWhile_not Char.isDigit (emit '$' (n + 1) ps)
      rw [Option.mem_def.mp hc] at hstop
      simpa using hstop
  obtain ⟨qs, rfl, -⟩ := hqs.cons_inv hnext
  have hspelled := congrArg Prod.snd (List.cons.inj hl).1
  exact hmore (List.append_right_eq_self.mp hspelled)

/-- A number that no digit follows is read as a parameter of its own. -/
theorem means_mark_of_clean (hhead : ∀ d ∈ (emit '$' (n + 1) ps).head?, d.isDigit = false) :
    Means false k n (.mark :: ps) ↔
      Means false (k + (1 + (numeral (n + 1)).length)) (n + 1) ps := by
  have hdigits : ∀ c ∈ numeral (n + 1), c.isDigit = true := fun c hc => isDigit_of_mem_numeral hc
  have hnext : Next true false ('$' :: (numeral (n + 1) ++ emit '$' (n + 1) ps))
      (.param (numeral (n + 1))) false (emit '$' (n + 1) ps) :=
    .param rfl (numeral_ne_nil _) hdigits hhead
  have hoffset : k + (1 + (numeral (n + 1)).length) = k + ((numeral (n + 1)).length + 1) := by
    rw [Nat.add_comm 1]
  rw [means_mark, hoffset, Means]
  constructor
  · rintro ⟨qs, hqs, hl⟩
    obtain ⟨qs, rfl, hmore⟩ := hqs.cons_inv hnext
    exact ⟨qs, hmore, (List.cons.inj hl).2⟩
  · rintro ⟨qs, hqs, hl⟩
    refine ⟨_, .next hnext hqs, ?_⟩
    rw [← hl]
    rfl

/-- A number is read as a parameter of its own exactly at a clean place. -/
theorem means_mark_iff (hlone : rest.head? ≠ some '?') (hrest : Reads true false rest ps) :
    Means w k n (.mark :: ps) ↔
      CleanAt w ('?' :: rest) ∧ Means false (k + (1 + (numeral (n + 1)).length)) (n + 1) ps := by
  have hclean : CleanAt w ('?' :: rest) ↔
      w = false ∧ ∀ d ∈ rest.head?, d.isDigit = false := by
    constructor
    · intro h
      exact h.mark rest rfl hlone
    · intro h
      refine ⟨?_, by simp⟩
      rintro _ ⟨⟩ -
      exact h
  rw [hclean]
  cases w with
  | true => simp [not_means_inWord]
  | false =>
    have hswapped := hrest.swapped (n + 1)
    by_cases hdigit : ∃ d ∈ rest.head?, d.isDigit = true
    · obtain ⟨d, hd, hd'⟩ := hdigit
      have hhead : (emit '$' (n + 1) ps).head? = some d := by
        rcases hswapped with h | ⟨h, -⟩
        · rw [h]
          exact hd
        · obtain rfl := Option.some.inj (h.symm.trans hd)
          exact absurd hd' (by decide)
      have hnot : ¬ ∀ d ∈ rest.head?, d.isDigit = false := by
        intro hall
        rw [hall d hd] at hd'
        cases hd'
      exact iff_of_false (not_means_digit hhead hd') fun h => hnot h.1.2
    · have hall : ∀ d ∈ rest.head?, d.isDigit = false := by
        intro d hd
        by_contra hd'
        exact hdigit ⟨d, hd, by simpa using hd'⟩
      rw [means_mark_of_clean]
      · exact ⟨fun h => ⟨⟨rfl, hall⟩, h⟩, And.right⟩
      · intro d hd
        rcases hswapped with h | ⟨-, h⟩
        · exact hall d (h ▸ hd)
        · obtain rfl := Option.some.inj (h.symm.trans hd)
          decide

end Mark

/-- A run that is copied is read as before. -/
theorem means_copied_iff {s : Text} {k n : ℕ} {ps : List Piece}
    (hnext : Next true w (s ++ emit '$' n ps) (.copied s) w' (emit '$' n ps)) :
    Means w k n (.copied s :: ps) ↔ Means w' (k + s.length) n ps := by
  constructor
  · rintro ⟨qs, hqs, hl⟩
    obtain ⟨qs, rfl, hmore⟩ := hqs.cons_inv hnext
    exact ⟨qs, hmore, hl⟩
  · rintro ⟨qs, hqs, hl⟩
    exact ⟨_, .next hnext hqs, hl⟩

theorem means_pair_iff {k n : ℕ} {ps : List Piece} :
    Means w k n (.pair :: ps) ↔ Means false (k + 1) n ps := reads_questionMark_iff

/-- A construct that begins at a dollar covers the number behind its tag. -/
theorem not_means_tag {tag : Text} {c : Char} {k n : ℕ} {ps : List Piece}
    (hopens : Opens w (c :: emit '$' n ps) (.dollarQuoted tag) after)
    (hmem : (k + 1 + tag.length, numeral (n + 1)) ∈ markOffsets '$' (k + 1) n ps) :
    ¬ Means w k n (.copied [c] :: ps) := by
  rintro ⟨qs, hqs, hl⟩
  change Reads true w (c :: emit '$' n ps) qs at hqs
  change paramOffsets '$' k qs = markOffsets '$' (k + 1) n ps at hl
  rw [← hl] at hmem
  generalize htext : c :: emit '$' n ps = text at hqs hopens
  cases hqs with
  | done => cases hopens
  | next hnext _ =>
    cases hnext with
    | construct hopens' hsplit _ =>
      obtain ⟨rfl, rfl⟩ := hopens.unique hopens'
      simp only [paramOffsets] at hmem
      have hlate := le_of_mem_paramOffsets hmem
      simp [Piece.source, Construct.opening] at hlate
      omega
    | pair => exact not_opens_mark _ _ _ _ hopens
    | mark => exact not_opens_mark _ _ _ _ hopens
    | param _ hne hdigits => exact not_opens_digits hne hdigits _ _ hopens
    | plain hnone => exact hnone _ _ hopens

/-- A construct is no mark and no dollar with one behind it. -/
theorem Opens.cleanAt (h : Opens w t k after) : CleanAt w t := by
  constructor
  · rintro rest rfl
    exact absurd h (not_opens_mark _ _ _ _)
  · rintro rest rfl
    generalize htext : '$' :: '?' :: rest = text at h
    cases h with
    | lineComment => simp at htext
    | blockComment => simp at htext
    | single => simp at htext
    | double => simp at htext
    | escapeString he => simp [← (List.cons.inj htext).1] at he
    | @dollarQuoted tag htag =>
      have htail := (List.cons.inj htext).2
      cases tag with
      | nil => simp at htail
      | cons c tag =>
        have hc := htag.chars c List.mem_cons_self
        rw [← (List.cons.inj htail).1] at hc
        exact absurd hc (by decide)

/-- A lone dollar in a word is no opening, and a mark behind it is behind the word. -/
theorem cleanAt_of_inWord {c : Char} {rest : Text} (hmark : c ≠ '?')
    (hlater : CleanFrom true (inWordAfter true c) rest) : CleanAt true (c :: rest) := by
  constructor
  · intro x hx
    exact absurd (List.cons.inj hx).1 hmark
  · intro x hx
    obtain ⟨rfl, rfl⟩ := List.cons.inj hx
    by_contra hlone
    have hword := ((hlater _ _ (.here _ _)).mark x rfl hlone).1
    simp [inWordAfter] at hword

/-- Every number is read as the parameter of its mark exactly when all marks are clean. -/
theorem means_iff {ps : List Piece} (hreads : Reads true w t ps) (hparam : NoParams true w t)
    (k n : ℕ) :
    Means w k n ps ↔ CleanFrom true w t := by
  induction hreads generalizing k n with
  | done w => exact iff_of_true ⟨[], .done w, rfl⟩ (cleanFrom_nil true w)
  | @next w w' t t' p ps hnext hrest ih =>
    have ih := ih (hparam.later hnext)
    rw [cleanFrom_iff hnext]
    have hswapped := hrest.swapped n
    cases hnext with
    | construct hopens hsplit hclosed =>
      rw [means_copied_iff (Next.construct_swapped hopens hclosed hswapped), ih]
      exact ⟨fun h => ⟨hopens.cleanAt, h⟩, And.right⟩
    | pair =>
      rw [means_pair_iff, ih]
      refine ⟨fun h => ⟨⟨?_, by simp⟩, h⟩, And.right⟩
      rintro _ ⟨⟩ hlone
      exact absurd rfl hlone
    | mark _ hlone => rw [means_mark_iff hlone hrest, ih]
    | param hparams hne hdigits hend =>
      exact absurd (.param hparams hne hdigits hend) (hparam (.here _ _))
    | @plain _ c _ hnone hmark hplain =>
      by_cases hopens : ∃ k' after, Opens w (c :: emit '$' n ps) k' after
      · obtain ⟨k', after, hopens⟩ := hopens
        obtain ⟨rfl, rfl, tag, htag, hemit, rfl⟩ := opens_of_emit hnone hswapped hopens
        rcases dollar_of_emit hrest htag.chars hemit with ⟨y, rfl⟩ |
          ⟨⟨w', x, hfrom, hlone, hempty, hmore⟩, hmem⟩
        · exact absurd (Opens.dollarQuoted htag y) (hnone _ _)
        · refine iff_of_false (not_means_tag hopens (hmem (k + 1))) ?_
          rintro ⟨hhere, hlater⟩
          by_cases hnil : tag = []
          · obtain ⟨-, rfl⟩ := hempty hnil
            exact hlone (hhere.dollar x rfl)
          · have hword := ((hlater _ _ hfrom).mark x rfl hlone).1
            rw [hmore hnil] at hword
            cases hword
      · have hdigit : ¬ (true = true ∧ w = false ∧ c = '$' ∧
            ∃ d ∈ (emit '$' n ps).head?, d.isDigit = true) := by
          rintro ⟨-, rfl, rfl, d, hd, hd'⟩
          rcases hswapped with h | ⟨-, h⟩
          · exact hplain ⟨rfl, rfl, rfl, d, h ▸ hd, hd'⟩
          · obtain rfl := Option.some.inj (h.symm.trans hd)
            exact absurd hd' (by decide)
        have hnext : Next true w ([c] ++ emit '$' n ps) (.copied [c]) (inWordAfter w c)
            (emit '$' n ps) := .plain (fun k' after h => hopens ⟨k', after, h⟩) hmark hdigit
        rw [means_copied_iff hnext, ih]
        refine ⟨fun h => ⟨?_, h⟩, And.right⟩
        cases w with
        | true => exact cleanAt_of_inWord hmark h
        | false =>
          refine ⟨fun x hx => absurd (List.cons.inj hx).1 hmark, fun x hx => ?_⟩
          obtain ⟨rfl, rfl⟩ := List.cons.inj hx
          -- the number of a lone mark would make the dollar an opening
          by_contra hlone
          obtain ⟨qs, rfl, -⟩ := hrest.cons_inv (.mark _ hlone)
          have hempty : IsTag [] := ⟨by simp, by simp⟩
          exact hopens ⟨_, _, .dollarQuoted hempty _⟩

end Reading

section Suffix
variable {params w w' : Bool} {t t' text : Text} {prev : Option Char}

theorem From.suffix (h : From params w t w' t') : t' <:+ t := by
  induction h with
  | here => exact List.suffix_rfl
  | later hnext _ ih =>
    rw [← hnext.source.1]
    exact ih.trans (List.suffix_append _ _)

theorem Reached.suffix (h : Reached params text prev w t) : t <:+ text := by
  induction h with
  | start => exact List.suffix_rfl
  | next _ hnext ih =>
    rw [← hnext.source.1] at ih
    exact (List.suffix_append _ _).trans ih

/-- A text without dollars spells no parameter. -/
theorem noParams_of_dollar (h : '$' ∉ t) : NoParams params w t := by
  intro w' t' digits w'' t'' hfrom hnext
  cases hnext with
  | param => exact h (hfrom.suffix.subset List.mem_cons_self)

/-- A text without dollars and quotes is not misread. -/
theorem neverParts_of_notMem (hdollar : '$' ∉ text) (hquote : '\'' ∉ text) :
    NeverParts params text := by
  rintro prev w t hreached (⟨-, tag, rest, -, rfl⟩ | ⟨-, -, e, rest, -, rfl⟩)
  · exact hdollar (hreached.suffix.subset List.mem_cons_self)
  · exact hquote (hreached.suffix.subset (by simp))

end Suffix

/-- The numbers of the rewritten text are its parameters: one to the last, each at the place of its
mark. -/
def MeansParameters (text out : Text) (n : ℕ) : Prop :=
  ∃ ps qs, pieces.read none text = .ok ps ∧ Reads true false out qs ∧
    paramOffsets '$' 0 qs = markOffsets '$' 0 0 ps ∧
    (paramOffsets '$' 0 qs).map Prod.snd = (List.range n).map fun i => numeral (i + 1)

theorem rewritePlaceholders_pieces {text out : Text} {n : ℕ}
    (h : rewritePlaceholders text = .ok (out, n)) :
    ∃ ps, pieces.read none text = .ok ps ∧ out = emit '$' 0 ps ∧ n = markCount ps := by
  rw [rewritePlaceholders] at h
  cases hread : pieces.read none text with
  | error e =>
    rw [hread] at h
    cases h
  | ok ps =>
    rw [hread] at h
    obtain ⟨rfl, rfl⟩ := Prod.mk.inj (Except.ok.inj h)
    exact ⟨ps, rfl, rfl, rfl⟩

/-- The server reads the numbers of a rewritten text as its parameters exactly when every mark
stands behind no word and no lone dollar and in front of no digit. -/
theorem meansParameters_iff {text out : Text} {n : ℕ}
    (h : rewritePlaceholders text = .ok (out, n)) (hparam : NoParams true false text)
    (hnever : NeverParts true text) :
    MeansParameters text out n ↔ CleanFrom true false text := by
  obtain ⟨ps, hread, rfl, rfl⟩ := rewritePlaceholders_pieces h
  have hreads : Reads true false text ps := by
    rcases reads_or_endsInside true false text with ⟨ps', hps'⟩ | hends
    · have hsame := hps'.read hnever hparam .start
      rw [hread] at hsame
      obtain rfl := Except.ok.inj hsame
      exact hps'
    · obtain ⟨e, he⟩ := hends.read hnever hparam .start
      rw [hread] at he
      cases he
  rw [← means_iff hreads hparam 0 0]
  constructor
  · rintro ⟨ps', qs, hread', hqs, hl, -⟩
    rw [hread] at hread'
    obtain rfl := Except.ok.inj hread'
    exact ⟨qs, hqs, hl⟩
  · rintro ⟨qs, hqs, hl⟩
    refine ⟨ps, qs, hread, hqs, hl, ?_⟩
    rw [hl, markOffsets_numerals]
    simp only [Nat.zero_add]

end Uniorm.Libpq.Lexical
