import Uniorm.Sql.Token

/-! # Conditions with SQL precedence

The derivation trees of the grammar in which NOT binds tighter than AND and AND
tighter than OR, a reader that finds the tree of a token list in one pass, and
the three-valued meaning of a tree under values for its placeholders. The
grammar is unambiguous: `parse_iff` says that the reader inverts printing. The
last part describes the tree of two conditions written one after the other with
AND between them.
-/
namespace Uniorm.Sql

inductive Column where
  | plain (w : Text)
  | quoted (name : Text)
  deriving DecidableEq, Repr

def Column.token : Column → Token
  | .plain w => .word w
  | .quoted name => .quoted name

inductive Comparison where
  | columnMark (c : Column) (o : CompOp)
  | markColumn (o : CompOp) (c : Column)
  | markMark (o : CompOp)
  deriving DecidableEq, Repr

def Comparison.tokens : Comparison → List Token
  | .columnMark c o => [c.token, .op o, .mark]
  | .markColumn o c => [.mark, .op o, c.token]
  | .markMark o => [.mark, .op o, .mark]

inductive Level where
  | disj | conj | fact
  deriving DecidableEq, Repr

inductive Tree : Level → Type where
  | or (l : Tree .disj) (r : Tree .conj) : Tree .disj
  | ofConj (c : Tree .conj) : Tree .disj
  | and (l : Tree .conj) (r : Tree .fact) : Tree .conj
  | ofFact (f : Tree .fact) : Tree .conj
  | not (f : Tree .fact) : Tree .fact
  | paren (d : Tree .disj) : Tree .fact
  | cmp (c : Comparison) : Tree .fact

namespace Tree

def tokens : {l : Level} → Tree l → List Token
  | _, .or l r => l.tokens ++ .or :: r.tokens
  | _, .ofConj c => c.tokens
  | _, .and l r => l.tokens ++ .and :: r.tokens
  | _, .ofFact f => f.tokens
  | _, .not f => .not :: f.tokens
  | _, .paren d => .lparen :: d.tokens ++ [.rparen]
  | _, .cmp c => c.tokens

end Tree

/-- What precedes the operand that is read next: the finished part before the last OR, the one
before the last AND, and the number of NOTs. -/
structure Pending where
  disj : Option (Tree .disj)
  conj : Option (Tree .conj)
  nots : ℕ

def Pending.fresh : Pending := ⟨none, none, 0⟩

def negate : ℕ → Tree .fact → Tree .fact
  | 0, f => f
  | n + 1, f => negate n (.not f)

def attachFact : Option (Tree .conj) → Tree .fact → Tree .conj
  | none, f => .ofFact f
  | some c, f => .and c f

def attachConj : Option (Tree .disj) → Tree .conj → Tree .disj
  | none, c => .ofConj c
  | some d, c => .or d c

inductive Reader where
  | expect (p : Pending)
  | after (disj : Option (Tree .disj)) (conj : Tree .conj)

def Pending.fill (p : Pending) (f : Tree .fact) : Reader :=
  .after p.disj (attachFact p.conj (negate p.nots f))

def parseFrom : List Token → Reader → List Pending → Option (Tree .disj)
  | [], .after d c, [] => some (attachConj d c)
  | .and :: ts, .after d c, stack => parseFrom ts (.expect ⟨d, some c, 0⟩) stack
  | .or :: ts, .after d c, stack => parseFrom ts (.expect ⟨some (attachConj d c), none, 0⟩) stack
  | .rparen :: ts, .after d c, p :: stack =>
    parseFrom ts (p.fill (.paren (attachConj d c))) stack
  | .not :: ts, .expect p, stack => parseFrom ts (.expect { p with nots := p.nots + 1 }) stack
  | .lparen :: ts, .expect p, stack => parseFrom ts (.expect .fresh) (p :: stack)
  | .word w :: .op o :: .mark :: ts, .expect p, stack =>
    parseFrom ts (p.fill (.cmp (.columnMark (.plain w) o))) stack
  | .quoted w :: .op o :: .mark :: ts, .expect p, stack =>
    parseFrom ts (p.fill (.cmp (.columnMark (.quoted w) o))) stack
  | .mark :: .op o :: .word w :: ts, .expect p, stack =>
    parseFrom ts (p.fill (.cmp (.markColumn o (.plain w)))) stack
  | .mark :: .op o :: .quoted w :: ts, .expect p, stack =>
    parseFrom ts (p.fill (.cmp (.markColumn o (.quoted w)))) stack
  | .mark :: .op o :: .mark :: ts, .expect p, stack =>
    parseFrom ts (p.fill (.cmp (.markMark o))) stack
  | _, _, _ => none

def parse (ts : List Token) : Option (Tree .disj) := parseFrom ts (.expect .fresh) []

/-- What a reader has taken so far, spelled out again. -/
def Pending.tokens (p : Pending) : List Token :=
  (match p.disj with | none => [] | some d => d.tokens ++ [.or]) ++
    (match p.conj with | none => [] | some c => c.tokens ++ [.and]) ++ List.replicate p.nots .not

def Reader.tokens : Reader → List Token
  | .expect p => p.tokens
  | .after d c => (attachConj d c).tokens

def stackTokens (stack : List Pending) : List Token :=
  (stack.reverse.map fun p => p.tokens ++ [.lparen]).flatten

theorem negate_tokens (n : ℕ) (f : Tree .fact) :
    (negate n f).tokens = List.replicate n .not ++ f.tokens := by
  induction n generalizing f with
  | zero => rfl
  | succ n ih =>
    rw [negate, ih, List.replicate_succ', List.append_assoc]
    rfl

theorem fill_tokens (p : Pending) (f : Tree .fact) : (p.fill f).tokens = p.tokens ++ f.tokens := by
  rcases p with ⟨_ | d, _ | c, n⟩ <;>
    simp [Pending.fill, Reader.tokens, Pending.tokens, attachConj, attachFact, Tree.tokens,
      negate_tokens]

theorem stackTokens_cons (p : Pending) (stack : List Pending) :
    stackTokens (p :: stack) = stackTokens stack ++ p.tokens ++ [.lparen] := by
  simp [stackTokens]

/-- A tree that is read spells the tokens taken before together with those that were left. -/
theorem parseFrom_tokens {ts : List Token} {r : Reader} {stack : List Pending} {t : Tree .disj}
    (h : parseFrom ts r stack = some t) : t.tokens = stackTokens stack ++ r.tokens ++ ts := by
  induction ts, r, stack using parseFrom.induct with
  | case1 d c =>
    rw [parseFrom] at h
    obtain rfl := Option.some.inj h
    simp [stackTokens, Reader.tokens]
  | case2 ts d c stack ih =>
    rw [parseFrom] at h
    rw [ih h]
    cases d <;> simp [Reader.tokens, Pending.tokens, attachConj, Tree.tokens]
  | case3 ts d c stack ih =>
    rw [parseFrom] at h
    rw [ih h]
    simp [Reader.tokens, Pending.tokens]
  | case4 ts d c p stack ih =>
    rw [parseFrom] at h
    rw [ih h, fill_tokens, stackTokens_cons]
    simp [Reader.tokens, Tree.tokens]
  | case5 ts p stack ih =>
    rw [parseFrom] at h
    rw [ih h]
    simp [Reader.tokens, Pending.tokens, List.replicate_succ']
  | case6 ts p stack ih =>
    rw [parseFrom] at h
    rw [ih h, stackTokens_cons]
    simp [Reader.tokens, Pending.tokens, Pending.fresh]
  | case7 w o ts p stack ih =>
    rw [parseFrom] at h
    rw [ih h, fill_tokens]
    simp [Reader.tokens, Tree.tokens, Comparison.tokens, Column.token]
  | case8 w o ts p stack ih =>
    rw [parseFrom] at h
    rw [ih h, fill_tokens]
    simp [Reader.tokens, Tree.tokens, Comparison.tokens, Column.token]
  | case9 o w ts p stack ih =>
    rw [parseFrom] at h
    rw [ih h, fill_tokens]
    simp [Reader.tokens, Tree.tokens, Comparison.tokens, Column.token]
  | case10 o w ts p stack ih =>
    rw [parseFrom] at h
    rw [ih h, fill_tokens]
    simp [Reader.tokens, Tree.tokens, Comparison.tokens, Column.token]
  | case11 o ts p stack ih =>
    rw [parseFrom] at h
    rw [ih h, fill_tokens]
    simp [Reader.tokens, Tree.tokens, Comparison.tokens]
  | case12 ts r stack =>
    simp_all [parseFrom]

def Tree.reader : Tree .disj → Reader
  | .or l r => .after (some l) r
  | .ofConj c => .after none c

def Reads : {l : Level} → Tree l → Prop
  | .disj, t => ∀ rest stack,
    parseFrom (t.tokens ++ rest) (.expect .fresh) stack = parseFrom rest t.reader stack
  | .conj, c => ∀ d rest stack,
    parseFrom (c.tokens ++ rest) (.expect ⟨d, none, 0⟩) stack = parseFrom rest (.after d c) stack
  | .fact, f => ∀ p rest stack,
    parseFrom (f.tokens ++ rest) (.expect p) stack = parseFrom rest (p.fill f) stack

theorem reads {l : Level} (t : Tree l) : Reads t := by
  induction t with
  | or l r ihl ihr =>
    intro rest stack
    have hr := ihr (some l) rest stack
    rw [Tree.tokens, List.append_assoc, List.cons_append, ihl]
    cases l <;> exact hr
  | ofConj c ih => exact ih none
  | and l r ihl ihr =>
    intro d rest stack
    rw [Tree.tokens, List.append_assoc, List.cons_append, ihl]
    exact ihr ⟨d, some l, 0⟩ rest stack
  | ofFact f ih => exact fun d => ih ⟨d, none, 0⟩
  | not f ih =>
    intro p rest stack
    exact ih { p with nots := p.nots + 1 } rest stack
  | paren d ih =>
    intro p rest stack
    have h := ih (.rparen :: rest) (p :: stack)
    rw [Tree.tokens, List.cons_append, List.cons_append, List.append_assoc]
    cases d <;> exact h
  | cmp c =>
    intro p rest stack
    rcases c with ⟨_ | _, o⟩ | ⟨o, _ | _⟩ | ⟨o⟩ <;> rfl

/-- The reader inverts printing, so no token list has two trees. -/
theorem parse_iff (ts : List Token) (t : Tree .disj) : parse ts = some t ↔ t.tokens = ts := by
  constructor
  · intro h
    simpa [stackTokens, Reader.tokens, Pending.tokens, Pending.fresh] using parseFrom_tokens h
  · rintro rfl
    have h : parseFrom (t.tokens ++ []) (.expect .fresh) [] = parseFrom [] t.reader [] :=
      reads t [] []
    rw [List.append_nil] at h
    rw [parse, h]
    cases t <;> rfl

def and3 : Option Bool → Option Bool → Option Bool
  | some false, _ => some false
  | _, some false => some false
  | some true, b => b
  | none, _ => none

def or3 : Option Bool → Option Bool → Option Bool
  | some true, _ => some true
  | _, some true => some true
  | some false, b => b
  | none, _ => none

def not3 : Option Bool → Option Bool := Option.map Bool.not

theorem and3_true {a b : Option Bool} : and3 a b = some true ↔ a = some true ∧ b = some true := by
  rcases a with _ | _ | _ <;> rcases b with _ | _ | _ <;> decide

theorem and3_assoc (a b c : Option Bool) : and3 (and3 a b) c = and3 a (and3 b c) := by
  rcases a with _ | _ | _ <;> rcases b with _ | _ | _ <;> rcases c with _ | _ | _ <;> rfl

@[simp] theorem and3_self (b : Bool) : and3 (some b) (some b) = some b := by cases b <;> rfl

@[simp] theorem or3_self (b : Bool) : or3 (some b) (some b) = some b := by cases b <;> rfl

@[simp] theorem or3_true_left (a : Option Bool) : or3 (some true) a = some true := rfl

@[simp] theorem or3_true_right (a : Option Bool) : or3 a (some true) = some true := by
  rcases a with _ | _ | _ <;> rfl

/-- How a server compares values. Some value can be met and missed by every operator on either
side; a server without one could not tell a row from another. -/
structure Semantics (V : Type*) where
  compare : CompOp → V → V → Option Bool
  probe : V
  probe_left : ∀ o b, ∃ v, compare o probe v = some b
  probe_right : ∀ o b, ∃ v, compare o v probe = some b

variable {V : Type*}

def Comparison.eval (S : Semantics V) (row : Column → V) : Comparison → List V → Option Bool
  | .columnMark c o, [v] => S.compare o (row c) v
  | .markColumn o c, [v] => S.compare o v (row c)
  | .markMark o, [v, w] => S.compare o v w
  | _, _ => none

namespace Tree

/-- The number of placeholders of a condition. -/
def marks {l : Level} (t : Tree l) : ℕ := Sql.marks t.tokens

/-- The truth of a condition for a row, its placeholders bound from left to right. -/
def eval (S : Semantics V) (row : Column → V) : {l : Level} → Tree l → List V → Option Bool
  | _, .or l r, vs => or3 (l.eval S row (vs.take l.marks)) (r.eval S row (vs.drop l.marks))
  | _, .ofConj c, vs => c.eval S row vs
  | _, .and l r, vs => and3 (l.eval S row (vs.take l.marks)) (r.eval S row (vs.drop l.marks))
  | _, .ofFact f, vs => f.eval S row vs
  | _, .not f, vs => not3 (f.eval S row vs)
  | _, .paren d, vs => d.eval S row vs
  | _, .cmp c, vs => c.eval S row vs

theorem marks_or (l : Tree .disj) (r : Tree .conj) : (or l r).marks = l.marks + r.marks := by
  simp [marks, tokens, Sql.marks]

theorem marks_and (l : Tree .conj) (r : Tree .fact) : (and l r).marks = l.marks + r.marks := by
  simp [marks, tokens, Sql.marks]

theorem marks_not (f : Tree .fact) : (not f).marks = f.marks := by simp [marks, tokens, Sql.marks]

theorem marks_paren (d : Tree .disj) : (paren d).marks = d.marks := by
  simp [marks, tokens, Sql.marks]

theorem eval_or {S : Semantics V} {row : Column → V} {l : Tree .disj} {r : Tree .conj}
    {vl vr : List V} (h : vl.length = l.marks) :
    (or l r).eval S row (vl ++ vr) = or3 (l.eval S row vl) (r.eval S row vr) := by
  rw [eval, ← h, List.take_left, List.drop_left]

theorem eval_and {S : Semantics V} {row : Column → V} {l : Tree .conj} {r : Tree .fact}
    {vl vr : List V} (h : vl.length = l.marks) :
    (and l r).eval S row (vl ++ vr) = and3 (l.eval S row vl) (r.eval S row vr) := by
  rw [eval, ← h, List.take_left, List.drop_left]

/-- Values that give every condition outside a NOT the wanted truth: each comparison has a placeholder
of its own. -/
noncomputable def force (S : Semantics V) : {l : Level} → Tree l → Bool → List V
  | _, .or l r, b => l.force S b ++ r.force S b
  | _, .ofConj c, b => c.force S b
  | _, .and l r, b => l.force S b ++ r.force S b
  | _, .ofFact f, b => f.force S b
  | _, .not f, b => f.force S !b
  | _, .paren d, b => d.force S b
  | _, .cmp (.columnMark _ o), b => [(S.probe_left o b).choose]
  | _, .cmp (.markColumn o _), b => [(S.probe_right o b).choose]
  | _, .cmp (.markMark o), b => [S.probe, (S.probe_left o b).choose]

theorem force_length (S : Semantics V) {l : Level} (t : Tree l) (b : Bool) :
    (t.force S b).length = t.marks := by
  induction t generalizing b with
  | or l r ihl ihr => rw [force, List.length_append, ihl, ihr, marks_or]
  | and l r ihl ihr => rw [force, List.length_append, ihl, ihr, marks_and]
  | ofConj c ih => exact ih b
  | ofFact f ih => exact ih b
  | not f ih => rw [force, ih, marks_not]
  | paren d ih => rw [force, ih, marks_paren]
  | cmp c => rcases c with ⟨_ | _, o⟩ | ⟨o, _ | _⟩ | ⟨o⟩ <;> rfl

def probeRow (S : Semantics V) : Column → V := fun _ => S.probe

theorem eval_force (S : Semantics V) {l : Level} (t : Tree l) (b : Bool) :
    t.eval S (probeRow S) (t.force S b) = some b := by
  induction t generalizing b with
  | or l r ihl ihr => rw [force, eval_or (force_length S l b), ihl, ihr, or3_self]
  | and l r ihl ihr => rw [force, eval_and (force_length S l b), ihl, ihr, and3_self]
  | ofConj c ih => exact ih b
  | ofFact f ih => exact ih b
  | not f ih => rw [force, eval, ih, not3, Option.map_some, Bool.not_not]
  | paren d ih => exact ih b
  | cmp c =>
    rcases c with ⟨c, o⟩ | ⟨o, c⟩ | ⟨o⟩
    · exact (S.probe_left o b).choose_spec
    · exact (S.probe_right o b).choose_spec
    · exact (S.probe_left o b).choose_spec

/-- Whether an OR stands outside all parentheses. -/
def topOr : Tree .disj → Bool
  | .or _ _ => true
  | .ofConj _ => false

def conjJoin (a : Tree .conj) : Tree .conj → Tree .conj
  | .and l f => .and (conjJoin a l) f
  | .ofFact f => .and a f

/-- The tree of `a AND b` written without parentheses: the last conjunction of `a` and the first
of `b` become one. -/
def andJoin : Tree .disj → Tree .disj → Tree .disj
  | a, .or l r => .or (andJoin a l) r
  | .ofConj c, .ofConj c' => .ofConj (conjJoin c c')
  | .or l c, .ofConj c' => .or l (conjJoin c c')

theorem tokens_conjJoin (a c : Tree .conj) :
    (conjJoin a c).tokens = a.tokens ++ .and :: c.tokens := by
  match c with
  | .and l f => simp [conjJoin, tokens, tokens_conjJoin a l]
  | .ofFact f => rw [conjJoin, tokens, tokens]

theorem tokens_andJoin (a b : Tree .disj) :
    (andJoin a b).tokens = a.tokens ++ .and :: b.tokens := by
  match b with
  | .or l r => simp [andJoin, tokens, tokens_andJoin a l]
  | .ofConj c' => cases a <;> simp [andJoin, tokens, tokens_conjJoin]

theorem marks_conjJoin (a c : Tree .conj) : (conjJoin a c).marks = a.marks + c.marks := by
  simp [marks, tokens_conjJoin, Sql.marks]

theorem marks_andJoin (a b : Tree .disj) : (andJoin a b).marks = a.marks + b.marks := by
  simp [marks, tokens_andJoin, Sql.marks]

theorem eval_conjJoin {S : Semantics V} {row : Column → V} (a c : Tree .conj) {va vc : List V}
    (ha : va.length = a.marks) (hc : vc.length = c.marks) :
    (conjJoin a c).eval S row (va ++ vc) = and3 (a.eval S row va) (c.eval S row vc) := by
  match c with
  | .and l f =>
    rw [marks_and] at hc
    have hl : (vc.take l.marks).length = l.marks := by rw [List.length_take]; omega
    have hsplit : va ++ vc = (va ++ vc.take l.marks) ++ vc.drop l.marks := by
      rw [List.append_assoc, List.take_append_drop]
    rw [conjJoin, hsplit, eval_and (by rw [List.length_append, marks_conjJoin, ha, hl]),
      eval_conjJoin a l ha hl, and3_assoc]
    rfl
  | .ofFact f =>
    rw [conjJoin, eval_and ha]
    rfl

/-- Without an OR outside parentheses on either side, AND between the texts is conjunction. -/
theorem eval_andJoin_of_not_topOr {S : Semantics V} {row : Column → V} {a b : Tree .disj}
    (hta : a.topOr = false) (htb : b.topOr = false) {va vb : List V}
    (ha : va.length = a.marks) (hb : vb.length = b.marks) :
    (andJoin a b).eval S row (va ++ vb) = and3 (a.eval S row va) (b.eval S row vb) := by
  cases a with
  | or => cases hta
  | ofConj c =>
    cases b with
    | or => cases htb
    | ofConj c' =>
      rw [andJoin, eval, eval_conjJoin c c' ha hb]
      rfl

theorem topOr_andJoin (a b : Tree .disj) : (andJoin a b).topOr = (a.topOr || b.topOr) := by
  cases b with
  | or l r => rw [andJoin, topOr, topOr, Bool.or_true]
  | ofConj c' => cases a <;> rw [andJoin] <;> rfl

theorem force_conjJoin (S : Semantics V) (a c : Tree .conj) (b : Bool) :
    (conjJoin a c).force S b = a.force S b ++ c.force S b := by
  match c with
  | .and l f => simp [conjJoin, force, force_conjJoin S a l]
  | .ofFact f => rw [conjJoin, force, force]

theorem force_andJoin (S : Semantics V) (a c : Tree .disj) (b : Bool) :
    (andJoin a c).force S b = a.force S b ++ c.force S b := by
  match c with
  | .or l r => simp [andJoin, force, force_andJoin S a l]
  | .ofConj c' => cases a <;> simp [andJoin, force, force_conjJoin]

/-- An OR on the left lets rows through that the right side excludes. -/
theorem eval_andJoin_topOr_left (S : Semantics V) {a : Tree .disj} (ha : a.topOr = true)
    (b : Tree .disj) :
    (andJoin a b).eval S (probeRow S) (a.force S true ++ b.force S false) = some true := by
  match b with
  | .or l r =>
    have hlen : (a.force S true ++ l.force S false).length = (andJoin a l).marks := by
      rw [List.length_append, force_length, force_length, marks_andJoin]
    rw [andJoin, force, ← List.append_assoc, eval_or hlen, eval_andJoin_topOr_left S ha l,
      or3_true_left]
  | .ofConj c' =>
    cases a with
    | or l c =>
      rw [andJoin, force, List.append_assoc, eval_or (force_length S l true), eval_force,
        or3_true_left]
    | ofConj c => cases ha

/-- An OR on the right lets rows through that the left side excludes. -/
theorem eval_andJoin_topOr_right (S : Semantics V) (a : Tree .disj) {b : Tree .disj}
    (hb : b.topOr = true) :
    (andJoin a b).eval S (probeRow S) (a.force S false ++ b.force S true) = some true := by
  cases b with
  | or l r =>
    have hlen : (a.force S false ++ l.force S true).length = (andJoin a l).marks := by
      rw [List.length_append, force_length, force_length, marks_andJoin]
    rw [andJoin, force, ← List.append_assoc, eval_or hlen, eval_force, or3_true_right]
  | ofConj c => cases hb

end Tree

end Uniorm.Sql
