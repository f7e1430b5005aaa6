import Uniorm.Oracle.Lexical

/-! # The parameters the server reads in a rewritten text

The rewritten text is read by Oracle's rules again, in which a parameter is a
colon with the digits behind it. A number stands where its mark stood and is
read as a parameter of its own exactly when no digit follows the mark: nothing
else in the text is read differently for the marks having been replaced.
-/
namespace Uniorm.Oracle.Lexical

open Foundation Sql

/-- The next token of the server. A mark is a character like others to it. -/
inductive Token : Place → Text → Piece → Place → Text → Prop where
  | construct {place : Place} {t after body rest : Text} {k : Construct}
    (hopens : Opens place t k after) (hsplit : after = body ++ rest) (hclosed : k.Closed body rest) :
    Token place t (.copied (k.opening ++ body)) .fresh rest
  | param (place : Place) {digits rest : Text} (hne : digits ≠ [])
    (hdigits : ∀ c ∈ digits, c.isDigit = true) (hrest : ∀ c ∈ rest.head?, c.isDigit = false) :
    Token place (':' :: (digits ++ rest)) (.param digits) .fresh rest
  | plain {place : Place} {c : Char} {rest : Text}
    (hopens : ∀ k after, ¬ Opens place (c :: rest) k after)
    (hparam : ¬ (c = ':' ∧ ∃ d ∈ rest.head?, d.isDigit = true)) :
    Token place (c :: rest) (.copied [c]) (place.behind c rest) rest

section Token
variable {place place' : Place} {t t' after after' : Text} {p : Piece} {k k' : Construct}

theorem Opens.eq_opening (h : Opens place t k after) : t = k.opening ++ after := by
  cases h <;> rfl

theorem Opens.before (h : Opens place t k after) (x : Text) :
    Opens place (k.opening ++ x) k x := by
  cases h with
  | lineComment => exact .lineComment _ x
  | blockComment => exact .blockComment _ x
  | single => exact .single _ x
  | double => exact .double _ x
  | alternate hplace hq => exact .alternate hplace hq x

theorem Opens.unique (h : Opens place t k after) (h' : Opens place t k' after') :
    k = k' ∧ after = after' := by
  cases h with
  | lineComment =>
    cases h' with
    | lineComment => exact ⟨rfl, rfl⟩
  | blockComment =>
    cases h' with
    | blockComment => exact ⟨rfl, rfl⟩
  | single =>
    cases h' with
    | single => exact ⟨rfl, rfl⟩
    | alternate _ hq => simp at hq
  | double =>
    cases h' with
    | double => exact ⟨rfl, rfl⟩
    | alternate _ hq => simp at hq
  | alternate _ hq =>
    obtain rfl | rfl := hq
    · cases h'
      exact ⟨rfl, rfl⟩
    · cases h'
      exact ⟨rfl, rfl⟩

theorem not_opens_colon : ¬ Opens place (':' :: t) k after := by
  intro h
  cases h with
  | alternate _ hq => simp at hq

/-- A construct has one end. -/
theorem Opens.closed_unique {body rest body' rest' : Text} (h : Opens place t k after)
    (h' : Opens place t k' after') (hsplit : after = body ++ rest) (hclosed : k.Closed body rest)
    (hsplit' : after' = body' ++ rest') (hclosed' : k'.Closed body' rest') :
    k = k' ∧ body = body' ∧ rest = rest' := by
  obtain ⟨rfl, rfl⟩ := h.unique h'
  have hskip := (skipped_iff h).mpr ⟨hsplit, hclosed⟩
  rw [(skipped_iff h).mpr ⟨hsplit', hclosed'⟩] at hskip
  obtain ⟨rfl, rfl⟩ := Prod.mk.inj (Option.some.inj hskip)
  exact ⟨rfl, rfl, rfl⟩

theorem Token.source (h : Token place t p place' t') :
    p.source ':' ≠ [] ∧ t = p.source ':' ++ t' := by
  cases h with
  | construct hopens hsplit _ =>
    rw [hopens.eq_opening, hsplit]
    refine ⟨?_, by simp [Piece.source]⟩
    cases hopens <;> exact List.cons_ne_nil _ _
  | param => exact ⟨List.cons_ne_nil _ _, rfl⟩
  | plain => exact ⟨List.cons_ne_nil _ _, rfl⟩

theorem Token.shortens (h : Token place t p place' t') : t'.length < t.length := by
  obtain ⟨hne, rfl⟩ := h.source
  have hpos := List.length_pos_iff.mpr hne
  rw [List.length_append]
  omega

theorem token_param (place : Place) {t : Text} (h : ∃ d ∈ t.head?, d.isDigit = true) :
    Token place (':' :: t) (.param (t.takeWhile Char.isDigit)) .fresh
      (t.dropWhile Char.isDigit) := by
  obtain ⟨d, hd, hdigit⟩ := h
  obtain ⟨x, rfl⟩ := List.head?_eq_some_iff.mp hd
  have htoken := @Token.param place ((d :: x).takeWhile Char.isDigit)
    ((d :: x).dropWhile Char.isDigit) (by simp [hdigit])
    (fun c hc => List.mem_takeWhile_imp hc) (fun c hc => by
      have hstop := List.head?_dropWhile_not Char.isDigit (d :: x)
      rw [Option.mem_def.mp hc] at hstop
      simpa using hstop)
  rwa [List.takeWhile_append_dropWhile] at htoken

/-- A text that is not at its end has a next token or opens a construct that does not end. -/
theorem token_or_endless (place : Place) (c : Char) (t : Text) :
    (∃ p place' t', Token place (c :: t) p place' t') ∨ Endless place (c :: t) := by
  rcases next_or_endless place c t with ⟨p, place', t', hnext⟩ | hendless
  · left
    cases hnext with
    | construct hopens hsplit hclosed => exact ⟨_, _, _, .construct hopens hsplit hclosed⟩
    | mark => exact ⟨_, _, _, .plain (fun _ _ => not_opens_mark) (by simp)⟩
    | plain hopens _ =>
      by_cases hparam : c = ':' ∧ ∃ d ∈ t.head?, d.isDigit = true
      · obtain ⟨rfl, hdigit⟩ := hparam
        exact ⟨_, _, _, token_param place hdigit⟩
      · exact ⟨_, _, _, .plain hopens hparam⟩
  · exact .inr hendless

def server : Grammar Place Char Piece := ⟨Token, Endless, Token.shortens, token_or_endless⟩

theorem tokens_functional : tokens.Functional := by
  intro place t p p' place₁ place₂ t₁ t₂ h h'
  cases h with
  | construct hopens hsplit hclosed =>
    cases h' with
    | construct hopens' hsplit' hclosed' =>
      obtain ⟨rfl, rfl, rfl⟩ := hopens.closed_unique hopens' hsplit hclosed hsplit' hclosed'
      exact ⟨rfl, rfl, rfl⟩
    | mark => exact absurd hopens not_opens_mark
    | plain hnone => exact absurd hopens (hnone _ _)
  | mark =>
    cases h' with
    | construct hopens => exact absurd hopens not_opens_mark
    | mark => exact ⟨rfl, rfl, rfl⟩
    | plain _ hmark => exact absurd rfl hmark
  | plain hnone hmark =>
    cases h' with
    | construct hopens => exact absurd hopens (hnone _ _)
    | mark => exact absurd rfl hmark
    | plain => exact ⟨rfl, rfl, rfl⟩

theorem Token.param_unique (h : Token place (':' :: t) p place' t')
    (hdigit : ∃ d ∈ t.head?, d.isDigit = true) :
    p = .param (t.takeWhile Char.isDigit) ∧ place' = .fresh ∧
      t' = t.dropWhile Char.isDigit := by
  generalize htext : ':' :: t = text at h
  cases h with
  | construct hopens =>
    rw [← htext] at hopens
    exact absurd hopens not_opens_colon
  | param hne hdigits hrest =>
    obtain ⟨-, rfl⟩ := List.cons.inj htext
    rw [List.takeWhile_append_of_pos hdigits, List.dropWhile_append_of_pos hdigits]
    cases t' with
    | nil => simp
    | cons c rest => simp [hrest c rfl]
  | plain _ hparam =>
    obtain ⟨rfl, rfl⟩ := List.cons.inj htext
    exact absurd ⟨rfl, hdigit⟩ hparam

theorem server_functional : server.Functional := by
  intro place t p p' place₁ place₂ t₁ t₂ h h'
  cases h with
  | construct hopens hsplit hclosed =>
    cases h' with
    | construct hopens' hsplit' hclosed' =>
      obtain ⟨rfl, rfl, rfl⟩ := hopens.closed_unique hopens' hsplit hclosed hsplit' hclosed'
      exact ⟨rfl, rfl, rfl⟩
    | param => exact absurd hopens not_opens_colon
    | plain hnone => exact absurd hopens (hnone _ _)
  | @param digits _ hne hdigits hrest =>
    have hhead : ∃ d ∈ (digits ++ t₁).head?, d.isDigit = true := by
      obtain ⟨d, ds, rfl⟩ := List.exists_cons_of_ne_nil hne
      exact ⟨d, rfl, hdigits d List.mem_cons_self⟩
    obtain ⟨hp, hplace, ht⟩ := Token.param_unique (.param place hne hdigits hrest) hhead
    obtain ⟨hp', hplace', ht'⟩ := Token.param_unique h' hhead
    exact ⟨hp.trans hp'.symm, hplace.trans hplace'.symm, ht.trans ht'.symm⟩
  | plain hnone hparam =>
    generalize htext : _ :: t₁ = text at h'
    cases h' with
    | construct hopens => exact absurd (htext ▸ hopens) (hnone _ _)
    | param hne hdigits =>
      obtain ⟨rfl, rfl⟩ := List.cons.inj htext
      obtain ⟨d, ds, rfl⟩ := List.exists_cons_of_ne_nil hne
      exact absurd ⟨rfl, d, rfl, hdigits d List.mem_cons_self⟩ hparam
    | plain =>
      obtain ⟨rfl, rfl⟩ := List.cons.inj htext
      exact ⟨rfl, rfl, rfl⟩

end Token

/-- A mark here stands in front of no digit. -/
def CleanAt (t : Text) : Prop := ∀ rest, t = '?' :: rest → ∀ d ∈ rest.head?, d.isDigit = false

def CleanFrom (place : Place) (t : Text) : Prop :=
  ∀ place' t', tokens.Reached place t place' t' → CleanAt t'

def NoParams (place : Place) (t : Text) : Prop :=
  ∀ place' t', tokens.Reached place t place' t' →
    ∀ rest, t' = ':' :: rest → ∀ d ∈ rest.head?, d.isDigit = false

/-- The server finds the numbers where the marks stood. -/
def Means (place : Place) (k n : ℕ) (ps : List Piece) : Prop :=
  ∃ qs, server.Reads place (emit ':' n ps) qs ∧ paramOffsets ':' k qs = markOffsets ':' k n ps

section Swapped
variable {place place' : Place} {c : Char} {t o after : Text} {p : Piece} {ps : List Piece}
  {k n : ℕ}

theorem swapped_of_reads (h : tokens.Reads place t ps) (n : ℕ) : Swapped ':' t (emit ':' n ps) := by
  cases h with
  | done => exact .inl rfl
  | @next _ _ _ t' p ps hnext _ =>
    obtain ⟨hne, rfl⟩ := Next.source hnext
    obtain ⟨c, cs, hcs⟩ := List.exists_cons_of_ne_nil hne
    cases p with
    | mark => exact .inr ⟨rfl, rfl⟩
    | pair => exact .inl rfl
    | param digits => exact .inl rfl
    | copied s =>
      left
      rw [Piece.source] at hcs
      simp [Piece.written, Piece.source, hcs]

theorem not_opens_swapped (hnone : ∀ k after, ¬ Opens place (c :: t) k after)
    (h : Swapped ':' t o) (k : Construct) (after : Text) : ¬ Opens place (c :: o) k after := by
  have hhead : ∀ {d : Char} {x : Text}, d ≠ ':' → o = d :: x → ∃ x', t = d :: x' := by
    rintro d x hd rfl
    rcases h with h | ⟨-, h⟩
    · exact List.head?_eq_some_iff.mp h.symm
    · exact absurd (Option.some.inj h) hd
  intro hopens
  generalize htext : c :: o = text at hopens
  cases hopens with
  | lineComment =>
    obtain ⟨rfl, ho⟩ := List.cons.inj htext
    obtain ⟨x, rfl⟩ := hhead (by decide) ho
    exact hnone _ _ (.lineComment place x)
  | blockComment =>
    obtain ⟨rfl, ho⟩ := List.cons.inj htext
    obtain ⟨x, rfl⟩ := hhead (by decide) ho
    exact hnone _ _ (.blockComment place x)
  | single =>
    obtain ⟨rfl, -⟩ := List.cons.inj htext
    exact hnone _ _ (.single place t)
  | double =>
    obtain ⟨rfl, -⟩ := List.cons.inj htext
    exact hnone _ _ (.double place t)
  | alternate hplace hq =>
    obtain ⟨rfl, ho⟩ := List.cons.inj htext
    obtain ⟨x, rfl⟩ := hhead (by decide) ho
    exact hnone _ _ (.alternate hplace hq x)

/-- The end of a construct does not move when a mark behind it is replaced. -/
theorem Construct.Closed.swapped {kind : Construct} {body rest rest' : Text}
    (hopens : Opens place t kind after) (hsplit : after = body ++ rest)
    (hclosed : kind.Closed body rest) (h : Swapped ':' rest rest') : kind.Closed body rest' := by
  have hskip := (skipped_iff hopens).mpr ⟨hsplit, hclosed⟩
  have hstable : Stable (skipped kind) := by
    cases hopens with
    | lineComment => exact stable_skipLineComment
    | blockComment => exact stable_skipPast _ _
    | single => exact stable_skipDoubledQuote (by decide)
    | double => exact stable_skipDoubledQuote (by decide)
    | alternate => exact stable_skipAlternateQuoted
  exact ((skipped_iff (hopens.before _)).mp ((hstable hskip).2 rest' h)).2

theorem Swapped.any_isDigit (h : Swapped ':' t o) :
    o.head?.any Char.isDigit = t.head?.any Char.isDigit := by
  rcases h with h | ⟨ht, ho⟩
  · rw [h]
  · rw [ht, ho]
    rfl

theorem leadsExponent_cons (c : Char) (t : Text) : leadsExponent (c :: t) =
    (c.isDigit || (c == '+' || c == '-') && t.head?.any Char.isDigit) := by
  cases t with
  | nil => simp [leadsExponent]
  | cons d t => rfl

/-- What is written goes on an exponent where the text does. -/
theorem leadsExponent_emit (h : tokens.Reads place t ps) (n : ℕ) :
    leadsExponent (emit ':' n ps) = leadsExponent t := by
  cases h with
  | done => rfl
  | @next _ place' _ t' p ps hnext hrest =>
    cases hnext with
    | construct hopens hsplit _ =>
      -- no construct opens with a digit or with a sign before one
      rw [hopens.eq_opening, hsplit, emit_cons, Piece.written]
      cases hopens with
      | alternate _ hq => obtain rfl | rfl := hq <;> simp [Construct.opening, leadsExponent_cons]
      | _ => simp [Construct.opening, leadsExponent_cons]
    | mark => simp [Piece.written, leadsExponent_cons]
    | plain =>
      have hdigit := Swapped.any_isDigit (swapped_of_reads hrest n)
      simp only [emit_cons, Piece.written, Piece.marks, Nat.add_zero, List.cons_append,
        List.nil_append, leadsExponent_cons, hdigit]

/-- A character that opens nothing and begins no parameter is read as before. -/
theorem token_plain (hnone : ∀ k after, ¬ Opens place (c :: t) k after)
    (hreads : tokens.Reads place' t ps)
    (hparam : c = ':' → ∀ d ∈ t.head?, d.isDigit = false) (n : ℕ) :
    Token place (c :: emit ':' n ps) (.copied [c]) (place.behind c t) (emit ':' n ps) := by
  have hswapped := swapped_of_reads hreads n
  have hbehind : place.behind c (emit ':' n ps) = place.behind c t := by
    cases place with
    | number => simp only [Place.behind, leadsExponent_emit hreads n]
    | _ => rfl
  rw [← hbehind]
  refine .plain (not_opens_swapped hnone hswapped) ?_
  rintro ⟨rfl, d, hd, hdigit⟩
  have hany := Swapped.any_isDigit hswapped
  rw [Option.mem_def.mp hd] at hany
  cases ht : t.head? with
  | none =>
    rw [ht] at hany
    simp [hdigit] at hany
  | some e =>
    have he := hparam rfl e ht
    rw [ht] at hany
    simp [hdigit, he] at hany

end Swapped

section Means
variable {place place' : Place} {t rest : Text} {k n : ℕ} {ps : List Piece}

/-- What is copied is read as before. -/
theorem means_copied_iff {s : Text}
    (h : Token place (s ++ emit ':' n ps) (.copied s) place' (emit ':' n ps)) :
    Means place k n (.copied s :: ps) ↔ Means place' (k + s.length) n ps := by
  constructor
  · rintro ⟨qs, hqs, hl⟩
    obtain ⟨qs, rfl, hmore⟩ := (server_functional.reads_iff h).mp hqs
    exact ⟨qs, hmore, hl⟩
  · rintro ⟨qs, hqs, hl⟩
    exact ⟨_, .next h hqs, hl⟩

theorem token_number (place : Place) (n : ℕ) (t : Text) :
    Token place (':' :: (numeral (n + 1) ++ t))
      (.param (numeral (n + 1) ++ t.takeWhile Char.isDigit)) .fresh (t.dropWhile Char.isDigit) := by
  have hdigits : ∀ c ∈ numeral (n + 1), c.isDigit = true := fun c hc => isDigit_of_mem_numeral hc
  have hhead : ∃ d ∈ (numeral (n + 1) ++ t).head?, d.isDigit = true := by
    obtain ⟨d, ds, hd⟩ := List.exists_cons_of_ne_nil (numeral_ne_nil (n + 1))
    exact ⟨d, by simp [hd], hdigits d (hd ▸ List.mem_cons_self)⟩
  have htoken := token_param place hhead
  rwa [List.takeWhile_append_of_pos hdigits, List.dropWhile_append_of_pos hdigits] at htoken

/-- A number is read as a parameter of its own exactly when no digit follows. -/
theorem means_mark_iff :
    Means place k n (.mark :: ps) ↔ (∀ d ∈ (emit ':' (n + 1) ps).head?, d.isDigit = false) ∧
      Means .fresh (k + ((numeral (n + 1)).length + 1)) (n + 1) ps := by
  have htext : emit ':' n (.mark :: ps) = ':' :: (numeral (n + 1) ++ emit ':' (n + 1) ps) := rfl
  have hoffsets : markOffsets ':' k n (.mark :: ps) = (k, numeral (n + 1)) ::
      markOffsets ':' (k + ((numeral (n + 1)).length + 1)) (n + 1) ps := rfl
  have htoken := token_number place n (emit ':' (n + 1) ps)
  rw [Means, htext, hoffsets]
  by_cases hdigit : ∀ d ∈ (emit ':' (n + 1) ps).head?, d.isDigit = false
  · have hnone : (emit ':' (n + 1) ps).takeWhile Char.isDigit = [] ∧
        (emit ':' (n + 1) ps).dropWhile Char.isDigit = emit ':' (n + 1) ps := by
      cases hx : emit ':' (n + 1) ps with
      | nil => simp
      | cons d x =>
        have hd := hdigit d (by rw [hx]; rfl)
        simp [hd]
    rw [hnone.1, hnone.2, List.append_nil] at htoken
    constructor
    · rintro ⟨qs, hqs, hl⟩
      obtain ⟨qs, rfl, hmore⟩ := (server_functional.reads_iff htoken).mp hqs
      exact ⟨hdigit, qs, hmore, (List.cons.inj hl).2⟩
    · rintro ⟨-, qs, hqs, hl⟩
      refine ⟨_, .next htoken hqs, ?_⟩
      rw [← hl]
      rfl
  · -- the digits behind the number belong to the parameter
    refine iff_of_false ?_ fun h => hdigit h.1
    rintro ⟨qs, hqs, hl⟩
    obtain ⟨qs, rfl, -⟩ := (server_functional.reads_iff htoken).mp hqs
    have hspelled := congrArg Prod.snd (List.cons.inj hl).1
    have hnone := List.append_right_eq_self.mp hspelled
    apply hdigit
    intro d hd
    obtain ⟨x, hx⟩ := List.head?_eq_some_iff.mp hd
    by_contra hd'
    rw [hx, List.takeWhile_cons_of_pos (by simpa using hd')] at hnone
    cases hnone

theorem cleanAt_mark_iff (hreads : tokens.Reads place' rest ps) (n : ℕ) :
    CleanAt ('?' :: rest) ↔ ∀ d ∈ (emit ':' n ps).head?, d.isDigit = false := by
  have hhere : CleanAt ('?' :: rest) ↔ ∀ d ∈ rest.head?, d.isDigit = false := by simp [CleanAt]
  rw [hhere]
  rcases swapped_of_reads hreads n with h | ⟨h, h'⟩
  · rw [h]
  · simp [h, h']

/-- Every number is read as the parameter of its mark exactly when all marks are clean. -/
theorem means_iff (hreads : tokens.Reads place t ps) (hparam : NoParams place t) (k n : ℕ) :
    Means place k n ps ↔ CleanFrom place t := by
  induction hreads generalizing k n with
  | done place =>
    refine iff_of_true ⟨[], .done place, rfl⟩ fun place' t' hreached => ?_
    obtain ⟨-, rfl⟩ := hreached.of_nil
    rintro rest ⟨⟩
  | @next place place' t t' p ps hnext hrest ih =>
    obtain ⟨hcolon, hlater⟩ := (tokens_functional.forall_reached_iff hnext
      (P := fun _ t' => ∀ rest, t' = ':' :: rest → ∀ d ∈ rest.head?, d.isDigit = false)).mp hparam
    have hmeans : ∀ k n, Means place' k n ps ↔ CleanFrom place' t' := fun k n => ih hlater k n
    have hboth : CleanFrom place t ↔ CleanAt t ∧ CleanFrom place' t' :=
      tokens_functional.forall_reached_iff hnext
    rw [hboth]
    cases hnext with
    | construct hopens hsplit hclosed =>
      have htoken := Token.construct (hopens.before _) rfl
        (hclosed.swapped hopens hsplit (swapped_of_reads hrest n))
      rw [← List.append_assoc] at htoken
      rw [means_copied_iff htoken, hmeans]
      refine ⟨fun h => ⟨?_, h⟩, And.right⟩
      rintro x rfl
      exact absurd hopens not_opens_mark
    | mark => rw [means_mark_iff, hmeans, cleanAt_mark_iff hrest]
    | @plain c _ hnone hmark =>
      have htoken := token_plain hnone hrest (fun hc => hcolon _ (by rw [hc])) n
      rw [means_copied_iff htoken, hmeans]
      refine ⟨fun h => ⟨?_, h⟩, And.right⟩
      intro x hx
      exact absurd (List.cons.inj hx).1 hmark

end Means

theorem suffix_of_reached {place place' : Place} {t t' : Text}
    (h : tokens.Reached place t place' t') : t' <:+ t := by
  induction h with
  | start => exact List.suffix_rfl
  | next _ hnext ih =>
    obtain ⟨-, rfl⟩ := Next.source hnext
    exact (List.suffix_append _ _).trans ih

theorem noParams_of_colon {place : Place} {t : Text} (h : ':' ∉ t) : NoParams place t := by
  rintro place' _ hreached rest rfl
  exact absurd ((suffix_of_reached hreached).subset List.mem_cons_self) h

theorem cleanFrom_of_tails {place : Place} {t : Text}
    (h : ∀ t' ∈ t.tails, t'.head? = some '?' → t'.tail.head?.all (fun d => !d.isDigit) = true) :
    CleanFrom place t := by
  rintro place' _ hreached rest rfl d hd
  have hall := h _ ((List.mem_tails _ _).mpr (suffix_of_reached hreached)) rfl
  rw [List.tail_cons, Option.mem_def.mp hd] at hall
  simpa using hall

/-- The numbers of the rewritten text are its parameters: one to the last, each at the place of its
mark. -/
def MeansParameters (text out : Text) (n : ℕ) : Prop :=
  ∃ ps qs, pieces.read () text = .ok ps ∧ server.Reads .fresh out qs ∧
    paramOffsets ':' 0 qs = markOffsets ':' 0 0 ps ∧
    (paramOffsets ':' 0 qs).map Prod.snd = (List.range n).map fun i => numeral (i + 1)

/-- The server reads the numbers of a rewritten text as its parameters exactly when no mark stands
in front of a digit. -/
theorem meansParameters_iff {text out : Text} {n : ℕ}
    (h : rewritePlaceholders text = .ok (out, n)) (hparam : NoParams .fresh text)
    (hquotes : QuotesApart text) :
    MeansParameters text out n ↔ CleanFrom .fresh text := by
  obtain ⟨ps, hread, rfl, rfl⟩ := rewritePlaceholders_pieces h
  have hreads := (hquotes.followed.read_eq_ok_iff trivial).mp hread
  rw [← means_iff hreads hparam 0 0]
  constructor
  · rintro ⟨ps', qs, hread', hqs, hl, -⟩
    rw [hread] at hread'
    obtain rfl := Except.ok.inj hread'
    exact ⟨qs, hqs, hl⟩
  · rintro ⟨qs, hqs, hl⟩
    refine ⟨ps, qs, hread, hqs, hl, ?_⟩
    rw [hl, markOffsets_numerals]
    simp only [Nat.zero_add]

end Uniorm.Oracle.Lexical
