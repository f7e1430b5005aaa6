import Mathlib.Data.Option.Basic
import Mathlib.Tactic.Common

/-! # Reading a text with a count of its lines

A scan takes characters off the front of a text and counts the lines it leaves
behind. Its two proof fields say what no scan can do: leave the text or lose
count of its lines, and let the number of the line decide what is read. So a
scan has a `read`ing, which is its run with the lines left out, and a proof
about what is read never mentions a line.
-/
namespace Uniorm.Foundation

variable {ε α β σ τ : Type}

structure Cursor where
  rest : List Char
  line : ℕ
  deriving DecidableEq, Repr

/-- A failure where the text is to blame, or a loop that used up its bound. -/
inductive Failure (ε : Type) where
  | at (line : ℕ) (reason : ε)
  | stuck
  deriving DecidableEq, Repr

/-- The second cursor is the first one with some text taken off. -/
def Cursor.Moved (c c' : Cursor) : Prop :=
  ∃ taken, c.rest = taken ++ c'.rest ∧ c'.line = c.line + taken.count '\n'

theorem Cursor.Moved.refl (c : Cursor) : c.Moved c := ⟨[], rfl, by simp⟩

theorem Cursor.Moved.trans {c c' c'' : Cursor} (h : c.Moved c') (h' : c'.Moved c'') :
    c.Moved c'' := by
  obtain ⟨taken, htext, hline⟩ := h
  obtain ⟨taken', htext', hline'⟩ := h'
  refine ⟨taken ++ taken', ?_, ?_⟩
  · rw [htext, htext', List.append_assoc]
  · rw [hline', hline, List.count_append, Nat.add_assoc]

theorem Cursor.Moved.length_le {c c' : Cursor} (h : c.Moved c') :
    c'.rest.length ≤ c.rest.length := by
  obtain ⟨taken, htext, -⟩ := h
  rw [htext, List.length_append]
  exact Nat.le_add_left _ _

def forgetLines : Except (Failure ε) (α × Cursor) → Option (α × List Char)
  | .ok r => some (r.1, r.2.rest)
  | .error _ => none

@[simp] theorem forgetLines_ok (r : α × Cursor) :
    forgetLines (.ok r : Except (Failure ε) (α × Cursor)) = some (r.1, r.2.rest) := rfl

@[simp] theorem forgetLines_error (e : Failure ε) :
    forgetLines (.error e : Except (Failure ε) (α × Cursor)) = none := rfl

@[ext] structure Scan (ε α : Type) where
  run : Cursor → Except (Failure ε) (α × Cursor)
  moves : ∀ {c r}, run c = .ok r → c.Moved r.2
  blind : ∀ text line line', forgetLines (run ⟨text, line⟩) = forgetLines (run ⟨text, line'⟩)

namespace Scan

/-- The value and the text left, where the scan does not fail. -/
def read (x : Scan ε α) (text : List Char) : Option (α × List Char) :=
  forgetLines (x.run ⟨text, 1⟩)

theorem forgetLines_run (x : Scan ε α) (c : Cursor) : forgetLines (x.run c) = x.read c.rest :=
  x.blind c.rest c.line 1

theorem read_length_le {x : Scan ε α} {text : List Char} {r : α × List Char}
    (h : x.read text = some r) : r.2.length ≤ text.length := by
  rw [read] at h
  cases hrun : x.run ⟨text, 1⟩ with
  | error e => simp [hrun] at h
  | ok out =>
    rw [hrun] at h
    obtain rfl := Option.some.inj h
    exact (x.moves hrun).length_le

instance : Monad (Scan ε) where
  pure a :=
    { run := fun c => .ok (a, c)
      moves := by
        intro c r h
        obtain rfl := Except.ok.inj h
        exact .refl c
      blind := fun _ _ _ => rfl }
  bind x f :=
    { run := fun c => x.run c >>= fun r => (f r.1).run r.2
      moves := by
        intro c r h
        cases hx : x.run c with
        | error e => simp [hx, bind, Except.bind] at h
        | ok mid =>
          rw [hx] at h
          exact (x.moves hx).trans ((f mid.1).moves h)
      blind := by
        intro text line line'
        have hsame := x.blind text line line'
        cases hx : x.run ⟨text, line⟩ with
        | error e =>
          cases hx' : x.run ⟨text, line'⟩ with
          | error e' => rfl
          | ok mid' => simp [hx, hx'] at hsame
        | ok mid =>
          cases hx' : x.run ⟨text, line'⟩ with
          | error e' => simp [hx, hx'] at hsame
          | ok mid' =>
            rw [hx, hx'] at hsame
            obtain ⟨hvalue, hrest⟩ := Prod.mk.inj (Option.some.inj hsame)
            change forgetLines ((f mid.1).run mid.2) = forgetLines ((f mid'.1).run mid'.2)
            rw [forgetLines_run, forgetLines_run, hvalue, hrest] }

def peek : Scan ε (List Char) where
  run c := .ok (c.rest, c)
  moves := by
    intro c r h
    obtain rfl := Except.ok.inj h
    exact .refl c
  blind _ _ _ := rfl

def advance (count : ℕ) : Scan ε Unit where
  run c := .ok ((), ⟨c.rest.drop count, c.line + (c.rest.take count).count '\n'⟩)
  moves := by
    intro c r h
    obtain rfl := Except.ok.inj h
    exact ⟨c.rest.take count, (List.take_append_drop count c.rest).symm, rfl⟩
  blind _ _ _ := rfl

def fail (reason : ε) : Scan ε α where
  run c := .error (.at c.line reason)
  moves := by
    intro c r h
    cases h
  blind _ _ _ := rfl

def stuck : Scan ε α where
  run _ := .error .stuck
  moves := by
    intro c r h
    cases h
  blind _ _ _ := rfl

/-- Read, and go back to the place it started at. -/
def ahead (x : Scan ε α) : Scan ε α where
  run c := (x.run c).map fun r => (r.1, c)
  moves := by
    intro c r h
    cases hx : x.run c with
    | error e => simp [hx, Except.map] at h
    | ok out =>
      rw [hx] at h
      obtain rfl := Except.ok.inj h
      exact .refl c
  blind text line line' := by
    have hsame := x.blind text line line'
    cases hx : x.run ⟨text, line⟩ <;> cases hx' : x.run ⟨text, line'⟩ <;>
      simp_all [Except.map]

/-- Read, and answer with the text that went. -/
def taken (x : Scan ε α) : Scan ε (List Char) where
  run c := (x.run c).map fun r => (c.rest.take (c.rest.length - r.2.rest.length), r.2)
  moves := by
    intro c r h
    cases hx : x.run c with
    | error e => simp [hx, Except.map] at h
    | ok out =>
      rw [hx] at h
      obtain rfl := Except.ok.inj h
      exact x.moves hx
  blind text line line' := by
    have hsame := x.blind text line line'
    cases hx : x.run ⟨text, line⟩ <;> cases hx' : x.run ⟨text, line'⟩ <;>
      simp_all [Except.map]

def orFail (line : ℕ) (reason : ε) : Option α × Cursor → Except (Failure ε) (α × Cursor)
  | (some a, c) => .ok (a, c)
  | (none, _) => .error (.at line reason)

theorem forgetLines_orFail (line : ℕ) (reason : ε) (out : Option α × Cursor) :
    forgetLines (orFail line reason out) = out.1.map fun a => (a, out.2.rest) := by
  rcases out with ⟨value | a, c⟩ <;> rfl

/-- Read something, or fail on the line the reading started on. -/
def demand (x : Scan ε (Option α)) (reason : ε) : Scan ε α where
  run c := x.run c >>= orFail c.line reason
  moves := by
    intro c r h
    cases hx : x.run c with
    | error e => simp [hx, bind, Except.bind] at h
    | ok out =>
      rw [hx] at h
      rcases out with ⟨value | a, c'⟩
      · cases h
      · obtain rfl := Except.ok.inj h
        exact x.moves hx
  blind text line line' := by
    have hsame := x.blind text line line'
    cases hx : x.run ⟨text, line⟩ with
    | error e =>
      cases hx' : x.run ⟨text, line'⟩ with
      | error e' => rfl
      | ok out' => simp [hx, hx'] at hsame
    | ok out =>
      cases hx' : x.run ⟨text, line'⟩ with
      | error e' => simp [hx, hx'] at hsame
      | ok out' =>
        rw [hx, hx'] at hsame
        obtain ⟨hvalue, hrest⟩ := Prod.mk.inj (Option.some.inj hsame)
        change forgetLines (orFail line reason out) = forgetLines (orFail line' reason out')
        rw [forgetLines_orFail, forgetLines_orFail, hvalue, hrest]

/-- At most `n` rounds of a loop. -/
def iterate (body : σ → Scan ε (σ ⊕ α)) : ℕ → σ → Scan ε α
  | 0, _ => stuck
  | n + 1, s => body s >>= Sum.elim (iterate body n) pure

theorem iterate_succ (body : σ → Scan ε (σ ⊕ α)) (n : ℕ) (s : σ) :
    iterate body (n + 1) s = body s >>= Sum.elim (iterate body n) pure := rfl

/-- Go round while the body answers with a state, until it answers with a value. Rounds that take
text off are at most as many as the text has characters. -/
def loop (body : σ → Scan ε (σ ⊕ α)) (s : σ) : Scan ε α :=
  peek >>= fun text => iterate body (text.length + 1) s

variable (text : List Char)

@[simp] theorem read_pure (a : α) : (pure a : Scan ε α).read text = some (a, text) := rfl

@[simp] theorem read_bind (x : Scan ε α) (f : α → Scan ε β) :
    (x >>= f).read text = (x.read text).bind fun r => (f r.1).read r.2 := by
  change forgetLines (x.run ⟨text, 1⟩ >>= fun r => (f r.1).run r.2) = _
  rw [read]
  cases x.run ⟨text, 1⟩ with
  | error e => rfl
  | ok r => exact forgetLines_run (f r.1) r.2

@[simp] theorem read_peek : (peek : Scan ε (List Char)).read text = some (text, text) := rfl

@[simp] theorem read_advance (count : ℕ) :
    (advance count : Scan ε Unit).read text = some ((), text.drop count) := rfl

@[simp] theorem read_fail (reason : ε) : (fail reason : Scan ε α).read text = none := rfl

@[simp] theorem read_stuck : (stuck : Scan ε α).read text = none := rfl

@[simp] theorem read_ahead (x : Scan ε α) :
    (ahead x).read text = (x.read text).map fun r => (r.1, text) := by
  change forgetLines ((x.run ⟨text, 1⟩).map fun r => (r.1, _)) = _
  rw [read]
  cases x.run ⟨text, 1⟩ <;> rfl

@[simp] theorem read_taken (x : Scan ε α) :
    (taken x).read text =
      (x.read text).map fun r => (text.take (text.length - r.2.length), r.2) := by
  change forgetLines ((x.run ⟨text, 1⟩).map _) = _
  rw [read]
  cases x.run ⟨text, 1⟩ <;> rfl

@[simp] theorem read_demand (x : Scan ε (Option α)) (reason : ε) :
    (demand x reason).read text =
      (x.read text).bind fun r => r.1.map fun a => (a, r.2) := by
  change forgetLines (x.run ⟨text, 1⟩ >>= orFail 1 reason) = _
  rw [read]
  cases x.run ⟨text, 1⟩ with
  | error e => rfl
  | ok r => exact forgetLines_orFail 1 reason r

@[simp] theorem read_ite (p : Prop) [Decidable p] (x y : Scan ε α) :
    (if p then x else y).read text = if p then x.read text else y.read text := by
  split_ifs <;> rfl

variable {text}

/-- A round that is followed by another one takes text off. -/
def Consumes (x : Scan ε (σ ⊕ α)) : Prop :=
  ∀ text s rest, x.read text = some (.inl s, rest) → rest.length < text.length

variable {body : σ → Scan ε (σ ⊕ α)} {body' : τ → Scan ε (τ ⊕ β)}

theorem read_iterate (hbody : ∀ s, (body s).Consumes) {n m : ℕ} (hn : text.length < n)
    (hm : text.length < m) (s : σ) : (iterate body n s).read text = (iterate body m s).read text := by
  induction n generalizing m text s with
  | zero => exact absurd hn (Nat.not_lt_zero _)
  | succ n ih =>
    cases m with
    | zero => exact absurd hm (Nat.not_lt_zero _)
    | succ m =>
      simp only [iterate_succ, read_bind]
      refine Option.bind_congr fun r hr => ?_
      rcases r with ⟨s' | a, rest⟩
      · have hlt : rest.length < text.length := hbody s text s' rest hr
        exact ih (Nat.lt_of_lt_of_le hlt (Nat.le_of_lt_succ hn))
          (Nat.lt_of_lt_of_le hlt (Nat.le_of_lt_succ hm)) s'
      · rfl

theorem read_loop (hbody : ∀ s, (body s).Consumes) (s : σ) :
    (loop body s).read text =
      ((body s).read text).bind fun r => (Sum.elim (loop body) pure r.1).read r.2 := by
  simp only [loop, read_bind, read_peek, Option.bind_some, iterate_succ]
  refine Option.bind_congr fun r hr => ?_
  rcases r with ⟨s' | a, rest⟩
  · have hlt : rest.length < text.length := hbody s text s' rest hr
    exact read_iterate hbody hlt (Nat.lt_succ_self rest.length) s'
  · rfl

/-- A result does not depend on how many more rounds there could be. -/
theorem iterate_mono {n m : ℕ} (hle : n ≤ m) {s : σ} {r : α × List Char}
    (h : (iterate body n s).read text = some r) : (iterate body m s).read text = some r := by
  induction n generalizing m text s with
  | zero => cases h
  | succ n ih =>
    cases m with
    | zero => exact absurd hle (Nat.not_succ_le_zero n)
    | succ m =>
      simp only [iterate_succ, read_bind] at h ⊢
      obtain ⟨q, hq, h⟩ := Option.bind_eq_some_iff.mp h
      rw [hq, Option.bind_some]
      rcases q with ⟨s' | a, rest⟩
      · exact ih (Nat.le_of_succ_le_succ hle) h
      · exact h

/-- A loop that goes on behind a round that took something off. -/
theorem read_loop_step {s s' : σ} {rest : List Char} {r : α × List Char}
    (hbody : (body s).read text = some (.inl s', rest)) (hlt : rest.length < text.length)
    (h : (loop body s').read rest = some r) : (loop body s).read text = some r := by
  simp only [loop, read_bind, read_peek, Option.bind_some] at h ⊢
  rw [iterate_succ, read_bind, hbody]
  exact iterate_mono hlt h

theorem read_loop_done {s : σ} {rest : List Char} {a : α}
    (hbody : (body s).read text = some (.inr a, rest)) :
    (loop body s).read text = some (a, rest) := by
  rw [loop, read_bind, read_peek, Option.bind_some, iterate_succ, read_bind, hbody]
  rfl

theorem read_loop_none {s : σ} (hbody : (body s).read text = none) :
    (loop body s).read text = none := by
  rw [loop, read_bind, read_peek, Option.bind_some, iterate_succ, read_bind, hbody]
  rfl

/-- What every round keeps holds of what the loop answers. -/
theorem loop_invariant {P : σ → Prop} {Q : α → Prop}
    (hbody : ∀ s text r, P s → (body s).read text = some r → Sum.elim P Q r.1) {s : σ} (hs : P s)
    {text : List Char} {r : α × List Char} (h : (loop body s).read text = some r) : Q r.1 := by
  simp only [loop, read_bind, read_peek, Option.bind_some] at h
  generalize text.length + 1 = n at h
  induction n generalizing s text with
  | zero => cases h
  | succ n ih =>
    rw [iterate_succ, read_bind] at h
    obtain ⟨q, hq, h⟩ := Option.bind_eq_some_iff.mp h
    have hnext := hbody s text q hs hq
    rcases q with ⟨s' | a, rest⟩
    · exact ih hnext h
    · obtain rfl := Option.some.inj h
      exact hnext

/-- Two readings that fail alike, and leave the same text where they do not. -/
def Alike (Q : α → β → Prop) : Option (α × List Char) → Option (β × List Char) → Prop
  | some r, some r' => r.2 = r'.2 ∧ Q r.1 r'.1
  | none, none => True
  | _, _ => False

theorem Alike.bind {α' β' : Type} {Q : α → β → Prop} {Q' : α' → β' → Prop}
    {o : Option (α × List Char)} {o' : Option (β × List Char)} (h : Alike Q o o')
    {f : α × List Char → Option (α' × List Char)} {f' : β × List Char → Option (β' × List Char)}
    (hf : ∀ a b rest, Q a b → Alike Q' (f (a, rest)) (f' (b, rest))) :
    Alike Q' (o.bind f) (o'.bind f') := by
  cases o with
  | none =>
    cases o' with
    | none => trivial
    | some r' => cases h
  | some r =>
    cases o' with
    | none => cases h
    | some r' =>
      obtain ⟨a, rest⟩ := r
      obtain ⟨b, rest'⟩ := r'
      obtain ⟨rfl, hq⟩ := h
      exact hf a b rest hq

theorem loop_alike {R : σ → τ → Prop} {Q : α → β → Prop}
    (hbody : ∀ s s' text, R s s' →
      Alike (Sum.LiftRel R Q) ((body s).read text) ((body' s').read text)) {s : σ} {s' : τ}
    (h : R s s') (text : List Char) :
    Alike Q ((loop body s).read text) ((loop body' s').read text) := by
  simp only [loop, read_bind, read_peek, Option.bind_some]
  generalize text.length + 1 = n
  induction n generalizing s s' text with
  | zero => trivial
  | succ n ih =>
    simp only [iterate_succ, read_bind]
    refine (hbody s s' text h).bind fun a b rest hab => ?_
    cases hab with
    | inl hstate => exact ih hstate rest
    | inr hvalue => exact ⟨rfl, hvalue⟩

end Scan

end Uniorm.Foundation
