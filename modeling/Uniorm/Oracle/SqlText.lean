import Mathlib.Data.List.TakeDrop
import Mathlib.Data.List.TakeWhile
import Uniorm.Foundation.Scanner
import Uniorm.Sql.Placeholder

/-! # The rewriting of placeholders for Oracle

`rewrite_placeholders` of the OCI backend. Block comments do not nest here, the
alternate quoting `q'X...X'` takes the place of the escape strings, and every mark
outside a comment or a quote is a placeholder of its own.
-/
namespace Uniorm.Oracle

open Foundation Sql

def alternateCloser (opener : Char) : Char :=
  if opener = '[' then ']'
  else if opener = '\x7b' then '\x7d'
  else if opener = '<' then '>'
  else if opener = '(' then ')'
  else opener

/-- The text of the `backend_error` thrown. -/
def unterminated (opening : Char) : String :=
  "statement ends inside a quote or comment opened by " ++ String.singleton opening

def skipLineComment (sql : Text) : Text × Text := sql.span (· ≠ '\n')

def skipPast (first second : Char) : Text → Option (Text × Text)
  | c :: d :: sql =>
    if c = first ∧ d = second then some ([c, d], sql)
    else (skipPast first second (d :: sql)).map fun r => (c :: r.1, r.2)
  | _ => none

def skipBlockComment : Text → Option (Text × Text) := skipPast '*' '/'

def skipDoubledQuote (quote : Char) : Text → Option (Text × Text)
  | [] => none
  | [c] => if c = quote then some ([c], []) else none
  | c :: d :: sql =>
    if c = quote then
      if d = quote then (skipDoubledQuote quote sql).map fun r => (c :: d :: r.1, r.2)
      else some ([c], d :: sql)
    else (skipDoubledQuote quote (d :: sql)).map fun r => (c :: r.1, r.2)

def skipAlternateQuoted : Text → Option (Text × Text)
  | [] => none
  | opener :: sql => (skipPast (alternateCloser opener) '\'' sql).map fun r => (opener :: r.1, r.2)

def skipConstruct (c : Char) (sql : Text) : Option (Char × Option (Text × Text)) :=
  if c = '-' ∧ sql.head? = some '-' then some ('-', some (skipLineComment (c :: sql)))
  else if c = '/' ∧ sql.head? = some '*' then
    some ('/', (skipBlockComment sql.tail).map fun r => ('/' :: '*' :: r.1, r.2))
  else if c = '\'' then some (c, (skipDoubledQuote c sql).map fun r => (c :: r.1, r.2))
  else if (c = 'q' ∨ c = 'Q') ∧ sql.head? = some '\'' then
    some ('q', (skipAlternateQuoted sql.tail).map fun r => (c :: '\'' :: r.1, r.2))
  else if c = '"' then some (c, (skipDoubledQuote c sql).map fun r => (c :: r.1, r.2))
  else none

/-- One turn of the loop of `rewrite_placeholders`. -/
def nextPiece (c : Char) (sql : Text) : Except Char (Piece × Text) :=
  match skipConstruct c sql with
  | some (_, some (span, rest)) => .ok (.copied span, rest)
  | some (opening, none) => .error opening
  | none => if c = '?' then .ok (.mark, sql) else .ok (.copied [c], sql)

/-- The function splits the text it is given, and finds the same end when a mark behind the end is
replaced. -/
def Stable (skip : Text → Option (Text × Text)) : Prop :=
  ∀ {sql span rest}, skip sql = some (span, rest) →
    span ++ rest = sql ∧ ∀ rest', Swapped ':' rest rest' → skip (span ++ rest') = some (span, rest')

theorem stable_skipLineComment : Stable fun sql => some (skipLineComment sql) := by
  intro sql span rest h
  have hskip := Option.some.inj h
  rw [skipLineComment, List.span_eq_takeWhile_dropWhile] at hskip
  obtain ⟨rfl, rfl⟩ := Prod.mk.inj hskip
  refine ⟨List.takeWhile_append_dropWhile, fun rest' hswapped => ?_⟩
  have hall : ∀ d ∈ sql.takeWhile (· ≠ '\n'), decide (d ≠ '\n') = true := by
    intro d hd
    exact List.mem_takeWhile_imp (p := fun x => decide (x ≠ '\n')) hd
  have hstop := List.head?_dropWhile_not (fun x => decide (x ≠ '\n')) sql
  have hnewline : rest'.dropWhile (· ≠ '\n') = rest' := by
    cases rest' with
    | nil => rfl
    | cons d rest' =>
      rcases hswapped with hsame | ⟨hmark, -⟩
      · rw [← hsame] at hstop
        rw [List.dropWhile_cons_of_neg (by simpa using hstop)]
      · rw [hmark] at hstop
        simp at hstop
  have hnone : rest'.takeWhile (· ≠ '\n') = [] := by
    have hlen := congrArg List.length (List.takeWhile_append_dropWhile (p := (· ≠ '\n')) (l := rest'))
    rw [hnewline, List.length_append] at hlen
    exact List.eq_nil_of_length_eq_zero (by omega)
  change some (skipLineComment _) = _
  rw [skipLineComment, List.span_eq_takeWhile_dropWhile, List.takeWhile_append_of_pos hall,
    List.dropWhile_append_of_pos hall, hnewline, hnone, List.append_nil]

theorem skipPast_cons {first second c : Char} {sql : Text} {r : Text × Text}
    (h : skipPast first second (c :: sql) = some r) : ∃ span, r.1 = c :: span := by
  cases sql with
  | nil => cases h
  | cons d sql =>
    rw [skipPast] at h
    split at h
    · obtain rfl := Option.some.inj h
      exact ⟨_, rfl⟩
    · obtain ⟨a, -, rfl⟩ := Option.map_eq_some_iff.mp h
      exact ⟨_, rfl⟩

theorem stable_skipPast (first second : Char) : Stable (skipPast first second) := by
  intro sql span rest h
  fun_induction skipPast first second sql generalizing span rest with
  | case1 c d sql hc =>
    obtain ⟨rfl, rfl⟩ := Prod.mk.inj (Option.some.inj h)
    exact ⟨rfl, fun rest' _ => by simp [skipPast, hc]⟩
  | case2 c d sql hc ih =>
    obtain ⟨a, ha, hpair⟩ := Option.map_eq_some_iff.mp h
    obtain ⟨rfl, rfl⟩ := Prod.mk.inj hpair
    obtain ⟨hsplit, hrest⟩ := ih ha
    refine ⟨by simp [hsplit], fun rest' hswapped => ?_⟩
    obtain ⟨x, hx⟩ := skipPast_cons ha
    have hmore := hrest rest' hswapped
    rw [hx, List.cons_append] at hmore ⊢
    rw [List.cons_append, skipPast, if_neg hc, hmore]
    rfl
  | case3 => cases h

theorem skipDoubledQuote_cons {quote c : Char} {sql : Text} {r : Text × Text}
    (h : skipDoubledQuote quote (c :: sql) = some r) : ∃ span, r.1 = c :: span := by
  cases sql with
  | nil =>
    rw [skipDoubledQuote] at h
    split at h
    · obtain rfl := Option.some.inj h
      exact ⟨_, rfl⟩
    · cases h
  | cons d sql =>
    rw [skipDoubledQuote] at h
    split at h
    · split at h
      · obtain ⟨a, -, rfl⟩ := Option.map_eq_some_iff.mp h
        exact ⟨_, rfl⟩
      · obtain rfl := Option.some.inj h
        exact ⟨_, rfl⟩
    · obtain ⟨a, -, rfl⟩ := Option.map_eq_some_iff.mp h
      exact ⟨_, rfl⟩

/-- The quote that closes a run is the last one. -/
theorem skipDoubledQuote_close {quote : Char} {rest : Text} (hrest : rest.head? ≠ some quote) :
    skipDoubledQuote quote ([quote] ++ rest) = some ([quote], rest) := by
  cases rest with
  | nil => simp [skipDoubledQuote]
  | cons d rest =>
    have hd : d ≠ quote := fun hd => hrest (by rw [hd]; rfl)
    simp [skipDoubledQuote, hd]

theorem stable_skipDoubledQuote {quote : Char} (hquote : quote ≠ ':') :
    Stable (skipDoubledQuote quote) := by
  intro sql span rest h
  fun_induction skipDoubledQuote quote sql generalizing span rest with
  | case1 => cases h
  | case2 =>
    obtain ⟨rfl, rfl⟩ := Prod.mk.inj (Option.some.inj h)
    exact ⟨rfl, fun rest' hs => skipDoubledQuote_close (hs.head?_ne hquote (by simp))⟩
  | case3 => cases h
  | case4 sql ih =>
    obtain ⟨a, ha, hpair⟩ := Option.map_eq_some_iff.mp h
    obtain ⟨rfl, rfl⟩ := Prod.mk.inj hpair
    obtain ⟨hsplit, hrest⟩ := ih ha
    exact ⟨by simp [hsplit], fun rest' hs => by simp [skipDoubledQuote, hrest rest' hs]⟩
  | case5 d sql hd =>
    obtain ⟨rfl, rfl⟩ := Prod.mk.inj (Option.some.inj h)
    have hhead : (d :: sql).head? ≠ some quote := by simpa using hd
    exact ⟨rfl, fun rest' hs => skipDoubledQuote_close (hs.head?_ne hquote hhead)⟩
  | case6 c d sql hc ih =>
    obtain ⟨a, ha, hpair⟩ := Option.map_eq_some_iff.mp h
    obtain ⟨rfl, rfl⟩ := Prod.mk.inj hpair
    obtain ⟨hsplit, hrest⟩ := ih ha
    refine ⟨by simp [hsplit], fun rest' hs => ?_⟩
    obtain ⟨x, hx⟩ := skipDoubledQuote_cons ha
    have hmore := hrest rest' hs
    rw [hx, List.cons_append] at hmore ⊢
    rw [List.cons_append, skipDoubledQuote, if_neg hc, hmore]
    rfl

theorem stable_skipAlternateQuoted : Stable skipAlternateQuoted := by
  intro sql span rest h
  cases sql with
  | nil => cases h
  | cons opener sql =>
    obtain ⟨a, ha, hpair⟩ := Option.map_eq_some_iff.mp h
    obtain ⟨rfl, rfl⟩ := Prod.mk.inj hpair
    obtain ⟨hsplit, hrest⟩ := stable_skipPast _ _ ha
    refine ⟨by simp [hsplit], fun rest' hs => ?_⟩
    rw [List.cons_append, skipAlternateQuoted, hrest rest' hs]
    rfl

/-- A construct runs as far when a mark behind it is replaced. -/
theorem skipConstruct_append {c opening : Char} {sql span rest : Text}
    (h : skipConstruct c sql = some (opening, some (span, rest))) :
    span ≠ [] ∧ span ++ rest = c :: sql ∧ ∀ rest', Swapped ':' rest rest' →
      ∃ sql', span ++ rest' = c :: sql' ∧
        skipConstruct c sql' = some (opening, some (span, rest')) := by
  unfold skipConstruct at h
  split at h
  · rename_i hc
    obtain ⟨rfl, hhead⟩ := hc
    obtain ⟨rfl, hskip⟩ := Prod.mk.inj (Option.some.inj h)
    obtain ⟨t, rfl⟩ := List.head?_eq_some_iff.mp hhead
    obtain ⟨hsplit, hrest⟩ := stable_skipLineComment hskip
    have hspan : ∃ x, span = '-' :: '-' :: x := by
      have hboth := Option.some.inj hskip
      rw [skipLineComment, List.span_eq_takeWhile_dropWhile] at hboth
      exact ⟨t.takeWhile (· ≠ '\n'), by simpa using (Prod.mk.inj hboth).1.symm⟩
    obtain ⟨x, rfl⟩ := hspan
    refine ⟨List.cons_ne_nil _ _, hsplit, fun rest' hs => ⟨'-' :: x ++ rest', rfl, ?_⟩⟩
    have hmore := hrest rest' hs
    simp only [List.cons_append] at hmore
    simp [skipConstruct, Option.some.inj hmore]
  · split at h
    · rename_i hc
      obtain ⟨rfl, hhead⟩ := hc
      obtain ⟨rfl, hskip⟩ := Prod.mk.inj (Option.some.inj h)
      obtain ⟨t, rfl⟩ := List.head?_eq_some_iff.mp hhead
      obtain ⟨a, ha, hpair⟩ := Option.map_eq_some_iff.mp hskip
      obtain ⟨rfl, rfl⟩ := Prod.mk.inj hpair
      obtain ⟨hsplit, hrest⟩ := stable_skipPast _ _ ha
      refine ⟨List.cons_ne_nil _ _, by simpa using hsplit,
        fun rest' hs => ⟨'*' :: a.1 ++ rest', rfl, ?_⟩⟩
      simp [skipConstruct, skipBlockComment, hrest rest' hs]
    · split at h
      · rename_i hc
        subst hc
        obtain ⟨rfl, hskip⟩ := Prod.mk.inj (Option.some.inj h)
        obtain ⟨a, ha, hpair⟩ := Option.map_eq_some_iff.mp hskip
        obtain ⟨rfl, rfl⟩ := Prod.mk.inj hpair
        obtain ⟨hsplit, hrest⟩ := stable_skipDoubledQuote (by decide) ha
        refine ⟨List.cons_ne_nil _ _, by simpa using hsplit,
          fun rest' hs => ⟨a.1 ++ rest', rfl, ?_⟩⟩
        simp [skipConstruct, hrest rest' hs]
      · split at h
        · rename_i hc
          obtain ⟨hq, hhead⟩ := hc
          obtain ⟨rfl, hskip⟩ := Prod.mk.inj (Option.some.inj h)
          obtain ⟨t, rfl⟩ := List.head?_eq_some_iff.mp hhead
          obtain ⟨a, ha, hpair⟩ := Option.map_eq_some_iff.mp hskip
          obtain ⟨rfl, rfl⟩ := Prod.mk.inj hpair
          obtain ⟨hsplit, hrest⟩ := stable_skipAlternateQuoted ha
          refine ⟨List.cons_ne_nil _ _, by simpa using hsplit,
            fun rest' hs => ⟨'\'' :: a.1 ++ rest', rfl, ?_⟩⟩
          obtain rfl | rfl := hq <;> simp [skipConstruct, hrest rest' hs]
        · split at h
          · rename_i hc
            subst hc
            obtain ⟨rfl, hskip⟩ := Prod.mk.inj (Option.some.inj h)
            obtain ⟨a, ha, hpair⟩ := Option.map_eq_some_iff.mp hskip
            obtain ⟨rfl, rfl⟩ := Prod.mk.inj hpair
            obtain ⟨hsplit, hrest⟩ := stable_skipDoubledQuote (by decide) ha
            refine ⟨List.cons_ne_nil _ _, by simpa using hsplit,
              fun rest' hs => ⟨a.1 ++ rest', rfl, ?_⟩⟩
            simp [skipConstruct, hrest rest' hs]
          · cases h

/-- What a turn of the loop does. -/
theorem nextPiece_eq_ok {c : Char} {sql rest : Text} {p : Piece}
    (h : nextPiece c sql = .ok (p, rest)) :
    (∃ opening span, skipConstruct c sql = some (opening, some (span, rest)) ∧ p = .copied span) ∨
    (skipConstruct c sql = none ∧ rest = sql ∧
      (c = '?' ∧ p = .mark ∨ c ≠ '?' ∧ p = .copied [c])) := by
  unfold nextPiece at h
  split at h
  · rename_i opening span rest' hskip
    obtain ⟨rfl, rfl⟩ := Prod.mk.inj (Except.ok.inj h)
    exact .inl ⟨opening, span, hskip, rfl⟩
  · cases h
  · rename_i hskip
    split at h
    · rename_i hc
      obtain ⟨rfl, rfl⟩ := Prod.mk.inj (Except.ok.inj h)
      exact .inr ⟨hskip, rfl, .inl ⟨hc, rfl⟩⟩
    · rename_i hc
      obtain ⟨rfl, rfl⟩ := Prod.mk.inj (Except.ok.inj h)
      exact .inr ⟨hskip, rfl, .inr ⟨hc, rfl⟩⟩

/-- Every turn of the loop takes a nonempty piece off the front. -/
theorem nextPiece_source {c : Char} {sql rest : Text} {p : Piece}
    (h : nextPiece c sql = .ok (p, rest)) :
    p.source ':' ≠ [] ∧ p.source ':' ++ rest = c :: sql := by
  rcases nextPiece_eq_ok h with ⟨opening, span, hskip, rfl⟩ | ⟨-, rfl, ⟨rfl, rfl⟩ | ⟨-, rfl⟩⟩
  · obtain ⟨hne, hsplit, -⟩ := skipConstruct_append hskip
    exact ⟨hne, hsplit⟩
  · exact ⟨List.cons_ne_nil _ _, rfl⟩
  · exact ⟨List.cons_ne_nil _ _, rfl⟩

theorem nextPiece_length {c : Char} {sql : Text} {r : Piece × Text} (h : nextPiece c sql = .ok r) :
    r.2.length ≤ sql.length := by
  obtain ⟨hne, hall⟩ := nextPiece_source h
  have hlen := congrArg List.length hall
  have hpos := List.length_pos_iff.mpr hne
  rw [List.length_append, List.length_cons] at hlen
  omega

/-- The loop of `rewrite_placeholders`. -/
def pieces : Scanner Unit Char Piece Char where
  step _ c sql := (nextPiece c sql).map fun r => (r.1, (), r.2)
  shortens := by
    intro _ c sql r h
    cases hnext : nextPiece c sql with
    | error e =>
      rw [hnext] at h
      cases h
    | ok a =>
      rw [hnext] at h
      obtain rfl := Except.ok.inj h
      exact nextPiece_length hnext

theorem pieces_step {c : Char} {sql : Text} {p : Piece} {rest : Text} (s : Unit) :
    pieces.step s c sql = .ok (p, (), rest) ↔ nextPiece c sql = .ok (p, rest) := by
  simp only [pieces]
  cases nextPiece c sql with
  | error e => exact iff_of_false (by simp [Except.map]) (by simp)
  | ok r =>
    obtain ⟨q, t⟩ := r
    simp [Except.map]

/-- The rewritten text and `placeholder_count`. -/
def rewritePlaceholders (sql : Text) : Except String (Text × ℕ) :=
  match pieces.read () sql with
  | .ok ps => .ok (emit ':' 0 ps, markCount ps)
  | .error opening => .error (unterminated opening)

theorem rewritePlaceholders_pieces {text out : Text} {n : ℕ}
    (h : rewritePlaceholders text = .ok (out, n)) :
    ∃ ps, pieces.read () text = .ok ps ∧ out = emit ':' 0 ps ∧ n = markCount ps := by
  rw [rewritePlaceholders] at h
  cases hread : pieces.read () text with
  | error e =>
    rw [hread] at h
    cases h
  | ok ps =>
    rw [hread] at h
    obtain ⟨rfl, rfl⟩ := Prod.mk.inj (Except.ok.inj h)
    exact ⟨ps, rfl, rfl, rfl⟩

end Uniorm.Oracle
