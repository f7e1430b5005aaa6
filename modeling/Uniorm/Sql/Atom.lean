import Mathlib.Data.Option.Basic
import Uniorm.Foundation.Scanner
import Uniorm.Sql.Condition

/-! # Conditions over comparisons, IN, IS NULL and LIKE

A condition is taken apart into its operators and its simple conditions. Each simple condition is
then one operand of the condition as a whole, whose precedence is the one of `parse`; its truth for
a row, under the values of its own placeholders, takes the place of the operand's.
-/
namespace Uniorm.Sql
open Foundation

/-- The simple conditions, a placeholder for each value. -/
inductive Atom where
  | compare (c : Column) (o : CompOp)
  | among (c : Column) (count : ℕ)
  | null (c : Column) (negated : Bool)
  | like (c : Column)
  | constants (a b : Text)
  deriving DecidableEq

def markList : ℕ → List Token
  | 0 => []
  | 1 => [.mark]
  | n + 2 => .mark :: .comma :: markList (n + 1)

def keywordIn : Text := ['I', 'N']
def keywordIs : Text := ['I', 'S']
def keywordNull : Text := ['N', 'U', 'L', 'L']
def keywordLike : Text := ['L', 'I', 'K', 'E']

def Atom.tokens : Atom → List Token
  | compare c o => [c.token, .op o, .mark]
  | among c count => c.token :: .word keywordIn :: .lparen :: (markList count ++ [.rparen])
  | null c false => [c.token, .word keywordIs, .word keywordNull]
  | null c true => [c.token, .word keywordIs, .not, .word keywordNull]
  | like c => [c.token, .word keywordLike, .mark]
  | constants a b => [.word a, .op .eq, .word b]

/-- The number of values a simple condition takes. -/
def Atom.marks : Atom → ℕ
  | compare _ _ => 1
  | among _ count => count
  | null _ _ => 0
  | like _ => 1
  | constants _ _ => 0

def Token.column? : Token → Option Column
  | .word w => some (.plain w)
  | .quoted name => some (.quoted name)
  | _ => none

def isKeyword (w keyword : Text) : Bool := w.map Char.toLower == keyword.map Char.toLower

def isNumber (w : Text) : Bool := !w.isEmpty && w.all Char.isDigit

def readMarks : List Token → Option (ℕ × List Token)
  | .mark :: .rparen :: ts => some (1, ts)
  | .mark :: .comma :: ts => (readMarks ts).map fun r => (r.1 + 1, r.2)
  | _ => none

def readPredicate (c : Column) (keyword : Text) : List Token → Option (Atom × List Token)
  | .lparen :: ts =>
    if isKeyword keyword keywordIn then (readMarks ts).map fun r => (.among c r.1, r.2) else none
  | .mark :: ts => if isKeyword keyword keywordLike then some (.like c, ts) else none
  | .word w :: ts =>
    if isKeyword keyword keywordIs && isKeyword w keywordNull then some (.null c false, ts)
    else none
  | .not :: .word w :: ts =>
    if isKeyword keyword keywordIs && isKeyword w keywordNull then some (.null c true, ts) else none
  | _ => none

/-- The simple condition at the front. -/
def readAtom : List Token → Option (Atom × List Token)
  | t :: .op o :: .mark :: ts => t.column?.map fun c => (.compare c o, ts)
  | .word a :: .op .eq :: .word b :: ts =>
    if isNumber a && isNumber b then some (.constants a b, ts) else none
  | t :: .word w :: ts => t.column?.bind fun c => readPredicate c w ts
  | _ => none

theorem readMarks_length {ts : List Token} {r : ℕ × List Token} (h : readMarks ts = some r) :
    r.2.length ≤ ts.length := by
  induction ts using readMarks.induct generalizing r with
  | case1 ts =>
    obtain rfl := Option.some.inj h
    simp only [List.length_cons]
    omega
  | case2 ts ih =>
    obtain ⟨r', hr', rfl⟩ := Option.map_eq_some_iff.mp h
    have hle := ih hr'
    simp only [List.length_cons]
    omega
  | case3 ts h₁ h₂ =>
    rw [readMarks] at h
    · cases h
    · exact h₁
    · exact h₂

theorem readPredicate_length {c : Column} {keyword : Text} {ts : List Token}
    {r : Atom × List Token} (h : readPredicate c keyword ts = some r) : r.2.length ≤ ts.length := by
  unfold readPredicate at h
  split at h
  · split at h
    · obtain ⟨r', hr', rfl⟩ := Option.map_eq_some_iff.mp h
      exact Nat.le_trans (readMarks_length hr') (Nat.le_succ _)
    · cases h
  · split at h
    · obtain rfl := Option.some.inj h
      exact Nat.le_succ _
    · cases h
  · split at h
    · obtain rfl := Option.some.inj h
      exact Nat.le_succ _
    · cases h
  · split at h
    · obtain rfl := Option.some.inj h
      exact Nat.le_add_right _ 2
    · cases h
  · cases h

theorem readAtom_length {t : Token} {ts : List Token} {r : Atom × List Token}
    (h : readAtom (t :: ts) = some r) : r.2.length ≤ ts.length := by
  unfold readAtom at h
  split at h
  · rename_i heq
    obtain ⟨_, _, rfl⟩ := Option.map_eq_some_iff.mp h
    simp only [List.cons.injEq] at heq
    obtain ⟨-, rfl⟩ := heq
    exact Nat.le_add_right _ 2
  · rename_i heq
    simp only [List.cons.injEq] at heq
    obtain ⟨-, rfl⟩ := heq
    split at h
    · obtain rfl := Option.some.inj h
      exact Nat.le_add_right _ 2
    · cases h
  · rename_i heq
    simp only [List.cons.injEq] at heq
    obtain ⟨-, rfl⟩ := heq
    obtain ⟨c, _, hc⟩ := Option.bind_eq_some_iff.mp h
    exact Nat.le_trans (readPredicate_length hc) (Nat.le_succ _)
  · cases h

/-- A piece of a condition. -/
inductive Part where
  | operator (t : Token)
  | atom (a : Atom)
  deriving DecidableEq

def Part.tokens : Part → List Token
  | operator t => [t]
  | atom a => a.tokens

def Token.isOperator : Token → Bool
  | .and => true
  | .or => true
  | .not => true
  | .lparen => true
  | .rparen => true
  | _ => false

/-- The pieces of a condition, from its front. -/
def parts : Scanner Unit Token Part Unit where
  step _ t ts :=
    if t.isOperator then .ok (.operator t, (), ts)
    else match readAtom (t :: ts) with
      | some (a, rest) => .ok (.atom a, (), rest)
      | none => .error ()
  shortens := by
    intro s t ts r h
    split at h
    · obtain rfl := Except.ok.inj h
      exact Nat.le_refl _
    · split at h
      · rename_i hread
        obtain rfl := Except.ok.inj h
        exact readAtom_length hread
      · cases h

section
variable {rest : List Token}

theorem readMarks_markList {n : ℕ} (h : 0 < n) :
    readMarks (markList n ++ .rparen :: rest) = some (n, rest) := by
  induction n with
  | zero => exact absurd h (Nat.lt_irrefl 0)
  | succ n ih =>
    cases n with
    | zero => rfl
    | succ n =>
      have hrest := ih (Nat.succ_pos n)
      rw [markList, List.cons_append, List.cons_append, readMarks, hrest]
      rfl

def Atom.Regular : Atom → Prop
  | among _ count => 0 < count
  | constants a b => isNumber a = true ∧ isNumber b = true
  | _ => True

/-- A simple condition is read off the front of whatever follows it. -/
theorem readAtom_tokens {a : Atom} (h : a.Regular) :
    readAtom (a.tokens ++ rest) = some (a, rest) := by
  cases a with
  | compare c o => cases c <;> rfl
  | among c count =>
    have hlist : readMarks (markList count ++ .rparen :: rest) = some (count, rest) :=
      readMarks_markList h
    have hpred : readPredicate c keywordIn (.lparen :: (markList count ++ .rparen :: rest)) =
        some (.among c count, rest) := by
      rw [readPredicate, if_pos (by decide), hlist]
      rfl
    have happend : (Atom.among c count).tokens ++ rest =
        c.token :: .word keywordIn :: .lparen :: (markList count ++ .rparen :: rest) := by
      simp [Atom.tokens]
    rw [happend]
    cases c <;> exact hpred
  | null c negated => cases negated <;> cases c <;> rfl
  | like c => cases c <;> rfl
  | constants a b =>
    have hboth : (isNumber a && isNumber b) = true := by
      rw [h.1, h.2]
      rfl
    exact if_pos hboth

/-- No simple condition begins like an operator. -/
theorem tokens_front (a : Atom) : ∃ t ts, a.tokens = t :: ts ∧ t.isOperator = false := by
  cases a with
  | compare c o => cases c <;> exact ⟨_, _, rfl, rfl⟩
  | among c count => cases c <;> exact ⟨_, _, rfl, rfl⟩
  | null c negated => cases negated <;> cases c <;> exact ⟨_, _, rfl, rfl⟩
  | like c => cases c <;> exact ⟨_, _, rfl, rfl⟩
  | constants a b => exact ⟨_, _, rfl, rfl⟩

def Part.Regular : Part → Prop
  | operator t => t.isOperator = true
  | atom a => a.Regular

/-- A condition that is spelled from its pieces is taken apart into them. -/
theorem parts_read {l : List Part} (h : ∀ p ∈ l, p.Regular) :
    parts.read () (l.flatMap Part.tokens) = .ok l := by
  induction l with
  | nil => rfl
  | cons p l ih =>
    have hp := h p List.mem_cons_self
    have hrest := ih fun p' hp' => h p' (List.mem_cons_of_mem _ hp')
    rw [List.flatMap_cons]
    cases p with
    | operator t =>
      have hstep : parts.step () t (l.flatMap Part.tokens) =
          .ok (.operator t, (), l.flatMap Part.tokens) := if_pos hp
      rw [Part.tokens, List.singleton_append, parts.read_of_step hstep, hrest]
      rfl
    | atom a =>
      obtain ⟨t, ts, htokens, ht⟩ := tokens_front a
      have hread : readAtom (a.tokens ++ l.flatMap Part.tokens) = some (a, l.flatMap Part.tokens) :=
        readAtom_tokens hp
      rw [htokens, List.cons_append] at hread
      have hstep : parts.step () t (ts ++ l.flatMap Part.tokens) =
          .ok (.atom a, (), l.flatMap Part.tokens) := by
        simp only [parts, ht, hread, Bool.false_eq_true, if_false]
      rw [Part.tokens, htokens, List.cons_append, parts.read_of_step hstep, hrest]
      rfl

end

/-- How a server compares values, matches patterns and tells what is null. -/
structure Meaning (V : Type*) where
  compare : CompOp → V → V → Option Bool
  like : V → V → Option Bool
  isNull : V → Bool

namespace Meaning
variable {V : Type*} (M : Meaning V)

/-- `x IN (values)`. -/
def among (x : V) (values : List V) : Option Bool :=
  values.foldr (fun v b => or3 (M.compare .eq x v) b) (some false)

end Meaning

def numberOf (w : Text) : ℕ := w.foldl (fun n c => 10 * n + (c.toNat - '0'.toNat)) 0

section
variable {V : Type*} (M : Meaning V) (row : Column → V)

/-- The truth of a simple condition under the values of its placeholders. -/
def Atom.eval : Atom → List V → Option Bool
  | compare c o, [v] => M.compare o (row c) v
  | among c _, vs => M.among (row c) vs
  | null c negated, [] => some (M.isNull (row c) != negated)
  | like c, [v] => M.like (row c) v
  | constants a b, [] => some (numberOf a == numberOf b)
  | _, _ => none

/-- The truths of the simple conditions, the values handed out from left to right. -/
def truths : List Part → List V → List (Option Bool)
  | [], _ => []
  | .operator _ :: l, vs => truths l vs
  | .atom a :: l, vs => a.eval M row (vs.take a.marks) :: truths l (vs.drop a.marks)

/-- The operators of a condition, with one and the same operand for every simple condition. -/
def skeleton (l : List Part) : List Token :=
  l.flatMap fun
    | .operator t => [t]
    | .atom _ => [.word [], .op .eq, .mark]

/-- The operands of a skeleton are the values of its placeholders. -/
def propositional : Semantics (Option Bool) where
  compare _ a b := b.or a
  probe := none
  probe_left _ b := ⟨some b, rfl⟩
  probe_right _ b := ⟨some b, rfl⟩

/-- The truth of the text of a condition for a row, its placeholders bound from left to right. -/
def conditionValue (q : Quote) (text : Text) (vs : List V) : Option (Option Bool) := do
  let ts ← lex q text
  let l ← (parts.read () ts).toOption
  let t ← parse (skeleton l)
  pure (t.eval propositional (fun _ => none) (truths M row l vs))

end

theorem marks_markList (n : ℕ) : marks (markList n) = n := by
  induction n with
  | zero => rfl
  | succ n ih =>
    cases n with
    | zero => rfl
    | succ n =>
      have hcons : marks (markList (n + 2)) = marks (markList (n + 1)) + 1 := by
        simp [markList, marks]
      rw [hcons, ih]

theorem marks_tokens (a : Atom) : marks a.tokens = a.marks := by
  cases a with
  | compare c o => cases c <;> rfl
  | among c count =>
    have hcons : marks (Atom.among c count).tokens = marks (markList count ++ [.rparen]) := by
      cases c <;> simp [Atom.tokens, Column.token, marks]
    rw [hcons, marks_append, marks_markList]
    rfl
  | null c negated => cases negated <;> cases c <;> rfl
  | like c => cases c <;> rfl
  | constants a b => rfl

/-- The values of a condition in front are those of its placeholders. -/
theorem truths_append {V : Type*} (M : Meaning V) (row : Column → V) (l l' : List Part)
    {vs : List V} (vs' : List V) (hl : ∀ p ∈ l, p.Regular)
    (h : vs.length = marks (l.flatMap Part.tokens)) :
    truths M row (l ++ l') (vs ++ vs') = truths M row l vs ++ truths M row l' vs' := by
  induction l generalizing vs with
  | nil =>
    obtain rfl := List.eq_nil_of_length_eq_zero h
    rfl
  | cons p l ih =>
    have hrest := fun p' hp' => hl p' (List.mem_cons_of_mem p hp')
    rw [List.flatMap_cons, marks_append] at h
    cases p with
    | operator t =>
      have hoperator : t.isOperator = true := hl _ List.mem_cons_self
      have hnone : marks (Part.operator t).tokens = 0 := by
        cases t <;> first | rfl | cases hoperator
      exact ih hrest (by omega)
    | atom a =>
      have hmarks : marks (Part.atom a).tokens = a.marks := marks_tokens a
      have hle : a.marks ≤ vs.length := by omega
      have hdrop : (vs.drop a.marks).length = marks (l.flatMap Part.tokens) := by
        rw [List.length_drop]
        omega
      rw [List.cons_append, truths, truths, List.take_append_of_le_length hle,
        List.drop_append_of_le_length hle, ih hrest hdrop, List.cons_append]

end Uniorm.Sql
