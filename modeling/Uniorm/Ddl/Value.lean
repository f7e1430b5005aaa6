import Uniorm.Ddl.Items

/-! # Values and casts

A value is read in two parts: what it begins with, and the casts and calls that
stand at once behind. Both are told here for the literals of a default, in front
of whatever ends them.
-/
namespace Uniorm.Ddl

open Foundation Foundation.Scan Sql Builder

variable [Dangling]

/-- One round of `skip_balanced` behind its parenthesis. -/
def balancedStep (depth : ℕ) : Reading (ℕ ⊕ Option Unit) := do
  let text ← peek
  match text with
  | [] => pure (.inr none)
  | c :: _ =>
    if quoteStart c then
      skipQuoted
      pure (.inl depth)
    else if c == '(' then
      advance 1
      pure (.inl (depth + 1))
    else if c == ')' then
      advance 1
      if depth = 1 then pure (.inr (some ())) else pure (.inl (depth - 1))
    else if lineComment text then
      skipLine
      pure (.inl depth)
    else if blockComment text then
      skipBlock
      pure (.inl depth)
    else
      advance 1
      pure (.inl depth)

theorem skipBalanced_eq : skipBalanced = demand (do
    expect '('
    loop balancedStep 1) "unterminated parenthesized list".toList := rfl

theorem read_balancedStep (depth : ℕ) (c : Char) (cs : Text) : (balancedStep depth).read (c :: cs) =
    if quoteStart c then (skipQuoted.read (c :: cs)).map fun r => (.inl depth, r.2)
    else if c = '(' then some (.inl (depth + 1), cs)
    else if c = ')' then some (if depth = 1 then .inr (some ()) else .inl (depth - 1), cs)
    else if lineComment (c :: cs) then some (.inl depth, (c :: cs).dropWhile (· != '\n'))
    else if blockComment (c :: cs) then (skipBlock.read (c :: cs)).map fun r => (.inl depth, r.2)
    else some (.inl depth, cs) := by
  simp only [balancedStep, read_bind, read_peek, Option.bind_some, read_ite, read_advance, read_pure,
    read_skipLine, beq_iff_eq, Option.map_eq_bind, Function.comp_def, List.drop_succ_cons,
    List.drop_zero]
  split_ifs <;> rfl

theorem balancedStep_consumes (depth : ℕ) : (balancedStep depth).Consumes := by
  intro text s rest h
  cases text with
  | nil => cases h
  | cons c cs =>
    have hcs : cs.length < (c :: cs).length := Nat.lt_succ_self _
    rw [read_balancedStep] at h
    by_cases hquote : quoteStart c = true
    · rw [if_pos hquote] at h
      obtain ⟨r, hr, h⟩ := Option.map_eq_some_iff.mp h
      obtain ⟨-, rfl⟩ := Prod.mk.inj h
      exact skipQuoted_consumes (List.cons_ne_nil _ _) hr
    rw [if_neg hquote] at h
    by_cases hopen : c = '('
    · rw [if_pos hopen] at h
      obtain ⟨-, rfl⟩ := Prod.mk.inj (Option.some.inj h)
      exact hcs
    rw [if_neg hopen] at h
    by_cases hclose : c = ')'
    · rw [if_pos hclose] at h
      obtain ⟨-, rfl⟩ := Prod.mk.inj (Option.some.inj h)
      exact hcs
    rw [if_neg hclose] at h
    by_cases hline : lineComment (c :: cs) = true
    · rw [if_pos hline] at h
      obtain ⟨-, rfl⟩ := Prod.mk.inj (Option.some.inj h)
      exact skipLine_consumes hline (read_skipLine _)
    rw [if_neg hline] at h
    by_cases hblock : blockComment (c :: cs) = true
    · rw [if_pos hblock] at h
      obtain ⟨r, hr, h⟩ := Option.map_eq_some_iff.mp h
      obtain ⟨-, rfl⟩ := Prod.mk.inj h
      exact skipBlock_consumes hblock hr
    rw [if_neg hblock] at h
    obtain ⟨-, rfl⟩ := Prod.mk.inj (Option.some.inj h)
    exact hcs

omit [Dangling] in
theorem not_special_of_isSpace {c : Char} (h : isSpace c = true) :
    quoteStart c = false ∧ c ≠ '(' ∧ c ≠ ')' ∧ (∀ cs, lineComment (c :: cs) = false) ∧
      ∀ cs, blockComment (c :: cs) = false := by
  simp only [isSpace, Bool.or_eq_true, beq_iff_eq] at h
  rcases h with ((((rfl | rfl) | rfl) | rfl) | rfl) | rfl <;>
    exact ⟨rfl, by decide, by decide, fun _ => rfl, fun _ => rfl⟩

theorem read_balancedStep_line {text : Text} (h : lineComment text = true) (depth : ℕ) :
    (balancedStep depth).read text = some (.inl depth, text.dropWhile (· != '\n')) := by
  cases text with
  | nil => cases h
  | cons c cs =>
    have hc : c = '#' ∨ c = '-' := by
      rw [lineComment_cons] at h
      simp only [Bool.or_eq_true, Bool.and_eq_true, beq_iff_eq] at h
      exact h.imp_right And.left
    rw [read_balancedStep, if_pos h]
    rcases hc with rfl | rfl
    · rw [if_neg (by decide), if_neg (by decide), if_neg (by decide)]
    · rw [if_neg (by decide), if_neg (by decide), if_neg (by decide)]

theorem read_expected {α : Type} (what : Text) (text : Text) :
    (expected what : Reading α).read text = none := by
  rw [expected, read_bind]
  cases here.read text with
  | none => rfl
  | some r => rfl

def skipName : Reading Unit := do
  let _ ← identifier
  skipDots

def startsNumber (c : Char) (cs : Text) : Bool :=
  c.isDigit || ((c == '-' || c == '+') && cs.head?.any Char.isDigit)

theorem read_valueHead (c : Char) (cs : Text) : valueHead.read (c :: cs) =
    if c = '\'' ∨ c = '$' then skipQuoted.read (c :: cs)
    else if startsNumber c cs = true then some ((), cs.drop (cs.takeWhile isNumberChar).length)
    else if c = '(' then skipBalanced.read (c :: cs)
    else if identStart c = true then skipName.read (c :: cs)
    else none := by
  have hread : valueHead.read (c :: cs) =
      (if c == '\'' || c == '$' then skipQuoted
        else if startsNumber c cs then advance ((cs.takeWhile isNumberChar).length + 1)
        else if c == '(' then skipBalanced
        else if identStart c then skipName
        else expected "a value".toList : Reading Unit).read (c :: cs) := rfl
  rw [hread]
  simp only [read_ite, read_advance, List.drop_succ_cons, Bool.or_eq_true, beq_iff_eq]
  split_ifs
  · rfl
  · rfl
  · rfl
  · rfl
  · exact read_expected _ _

/-- One round of the loop over casts and calls. -/
def tailStep (_ : Unit) : Reading (Unit ⊕ Unit) := do
  let text ← peek
  match text with
  | ':' :: ':' :: _ =>
    advance 2
    let _ ← identifier
    pure (.inl ())
  | c :: _ =>
    if c == '\'' || c == '$' then
      skipQuoted
      pure (.inl ())
    else if c == '(' then
      skipBalanced
      pure (.inl ())
    else pure (.inr ())
  | [] => pure (.inr ())

theorem valueTail_eq : valueTail = loop tailStep () := rfl

/-- One round of the loop over the parts of a name. -/
def dotStep (_ : Unit) : Reading (Unit ⊕ Unit) := do
  let dot ← ahead (eat '.')
  if dot then
    let _ ← eat '.'
    let _ ← identifier
    pure (.inl ())
  else pure (.inr ())

theorem skipDots_eq : skipDots = loop dotStep () := rfl

def EndsValue (text : Text) : Prop :=
  text.head?.all (fun c => c != ':' && c != '\'' && c != '$' && c != '(') = true

section Tail
variable {text rest : Text}

theorem EndsValue.read_valueTail (h : EndsValue text) : valueTail.read text = some ((), text) := by
  rw [valueTail_eq]
  refine read_loop_done ?_
  cases text with
  | nil => rfl
  | cons c cs =>
    simp only [EndsValue, List.head?_cons, Option.all_some, Bool.and_eq_true, bne_iff_ne] at h
    obtain ⟨⟨⟨hcolon, hquote⟩, hdollar⟩, hopen⟩ := h
    rw [tailStep, read_bind, read_peek, Option.bind_some]
    split
    · rename_i heq
      exact absurd (List.cons.inj heq).1 hcolon
    · rename_i heq
      obtain ⟨rfl, rfl⟩ := List.cons.inj heq
      simp [hquote, hdollar, hopen]
    · rename_i heq
      cases heq

theorem read_tailStep_list : (tailStep ()).read ('(' :: text) =
    (skipBalanced.read ('(' :: text)).map fun r => (.inl (), r.2) := by
  rw [tailStep, read_bind, read_peek, Option.bind_some, Option.map_eq_bind]
  change (skipBalanced >>= fun _ => pure (.inl ()) : Reading (Unit ⊕ Unit)).read _ = _
  rw [read_bind]
  rfl

theorem expect_consumes {ch : Char} {r : Unit × Text} (h : (expect ch).read text = some r) :
    r.2.length < text.length := by
  rw [expect, eat, peekIs, read_bind, read_bind, read_bind] at h
  cases hskip : skipBlanks.read text with
  | none =>
    rw [hskip] at h
    cases h
  | some q =>
    have hle : q.2.length ≤ text.length := read_length_le hskip
    rw [hskip, Option.bind_some, read_bind, read_peek, Option.bind_some, read_pure, Option.bind_some]
      at h
    cases hthere : q.2.head? == some ch with
    | false =>
      rw [hthere] at h
      simp only [Bool.false_eq_true, if_false, read_pure, Option.bind_some, Bool.not_false, if_true,
        read_expected] at h
      cases h
    | true =>
      rw [hthere] at h
      simp only [if_true, read_bind, read_advance, read_pure, Option.bind_some, Bool.not_true,
        Bool.false_eq_true, if_false] at h
      obtain rfl := Option.some.inj h
      have hne : q.2 ≠ [] := by
        intro hnil
        rw [hnil] at hthere
        cases hthere
      exact Nat.lt_of_lt_of_le (length_lt_of_drop Nat.one_pos hne) hle

theorem skipBalanced_consumes {r : Unit × Text} (h : skipBalanced.read text = some r) :
    r.2.length < text.length := by
  rw [skipBalanced_eq, read_demand, read_bind] at h
  obtain ⟨q, hq, h⟩ := Option.bind_eq_some_iff.mp h
  obtain ⟨u, hopen, hq⟩ := Option.bind_eq_some_iff.mp hq
  obtain ⟨a, -, rfl⟩ := Option.map_eq_some_iff.mp h
  have hle : q.2.length ≤ u.2.length := read_length_le hq
  exact Nat.lt_of_le_of_lt hle (expect_consumes hopen)

theorem tailStep_consumes (u : Unit) : (tailStep u).Consumes := by
  intro text s rest h
  rw [tailStep, read_bind, read_peek, Option.bind_some] at h
  split at h
  · rename_i cs heq
    obtain rfl : text = ':' :: ':' :: cs := heq
    rw [read_bind, read_advance, Option.bind_some, read_bind] at h
    obtain ⟨q, hq, h⟩ := Option.bind_eq_some_iff.mp h
    obtain ⟨-, rfl⟩ := Prod.mk.inj (Option.some.inj h)
    have hle : q.2.length ≤ cs.length := read_length_le hq
    exact Nat.lt_of_le_of_lt hle (Nat.lt_succ_of_lt (Nat.lt_succ_self _))
  · rename_i c cs hcolon heq
    obtain rfl : text = c :: cs := heq
    by_cases hquote : (c == '\'' || c == '$') = true
    · rw [if_pos hquote, read_bind] at h
      obtain ⟨q, hq, h⟩ := Option.bind_eq_some_iff.mp h
      obtain ⟨-, rfl⟩ := Prod.mk.inj (Option.some.inj h)
      exact skipQuoted_consumes (List.cons_ne_nil _ _) hq
    rw [if_neg hquote] at h
    by_cases hopen : (c == '(') = true
    · rw [if_pos hopen, read_bind] at h
      obtain ⟨q, hq, h⟩ := Option.bind_eq_some_iff.mp h
      obtain ⟨-, rfl⟩ := Prod.mk.inj (Option.some.inj h)
      exact skipBalanced_consumes hq
    rw [if_neg hopen] at h
    cases h
  · cases h

end Tail

end Uniorm.Ddl
