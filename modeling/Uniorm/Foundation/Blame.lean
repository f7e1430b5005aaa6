import Uniorm.Foundation.Scan

/-! # Scans that end, and what their failures are blamed on

A scan ends on a text if it comes to a value or to a failure, and not to a loop
that used up its bound. A failure names the line of the place it is raised at,
and a blame says what that place and the text in front of it have to do with the
reason that is given.
-/
namespace Uniorm.Foundation

variable {ε α β σ : Type}

/-- What a failure may be blamed on: the text that was taken, the text that it stands in front of, and
the reason. It may be blamed on that too where more was taken before. -/
structure Blame (ε : Type) where
  on : List Char → List Char → ε → Prop
  more : ∀ {taken rest : List Char} {reason : ε} (before : List Char), on taken rest reason →
    on (before ++ taken) rest reason

/-- A failure that is no end of a bound, and that names the line of the place it is blamed on. -/
def Blame.Explains (B : Blame ε) (c : Cursor) : Failure ε → Prop
  | .stuck => False
  | .at line reason => ∃ taken rest, c.rest = taken ++ rest ∧
      line = c.line + taken.count '\n' ∧ B.on taken rest reason

theorem Blame.Explains.behind {B : Blame ε} {c c' : Cursor} (hmoved : c.Moved c') {e : Failure ε}
    (h : B.Explains c' e) : B.Explains c e := by
  obtain ⟨before, htext, hline⟩ := hmoved
  cases e with
  | stuck => exact h
  | «at» n reason =>
    obtain ⟨taken, rest, hrest, hn, hblame⟩ := h
    refine ⟨before ++ taken, rest, ?_, ?_, B.more before hblame⟩
    · rw [htext, hrest, List.append_assoc]
    · rw [hn, hline, List.count_append, Nat.add_assoc]

namespace Scan

def EndsOn (B : Blame ε) (x : Scan ε α) (text : List Char) : Prop :=
  ∀ line e, x.run ⟨text, line⟩ = .error e → B.Explains ⟨text, line⟩ e

def Ends (B : Blame ε) (x : Scan ε α) : Prop := ∀ text, x.EndsOn B text

variable {B : Blame ε} {text : List Char}

theorem read_of_run {x : Scan ε α} {line : ℕ} {r : α × Cursor} (h : x.run ⟨text, line⟩ = .ok r) :
    x.read text = some (r.1, r.2.rest) := by
  have hread := forgetLines_run x ⟨text, line⟩
  rw [h] at hread
  exact hread.symm

theorem read_suffix {x : Scan ε α} {r : α × List Char} (h : x.read text = some r) :
    ∃ taken, text = taken ++ r.2 := by
  rw [read] at h
  cases hrun : x.run ⟨text, 1⟩ with
  | error e =>
    rw [hrun] at h
    cases h
  | ok out =>
    rw [hrun] at h
    obtain rfl := Option.some.inj h
    obtain ⟨taken, htext, -⟩ := x.moves hrun
    exact ⟨taken, htext⟩

theorem Ends.pure (a : α) : (pure a : Scan ε α).Ends B := by
  intro text line e h
  cases h

theorem Ends.peek : (peek : Scan ε (List Char)).Ends B := by
  intro text line e h
  cases h

theorem Ends.advance (count : ℕ) : (advance count : Scan ε Unit).Ends B := by
  intro text line e h
  cases h

theorem EndsOn.fail {reason : ε} (h : B.on [] text reason) :
    (Scan.fail reason : Scan ε α).EndsOn B text := by
  intro line e herror
  obtain rfl := Except.error.inj herror
  exact ⟨[], text, rfl, rfl, h⟩

theorem run_bind_error {x : Scan ε α} {f : α → Scan ε β} {c : Cursor} {e : Failure ε}
    (h : (x >>= f).run c = .error e) :
    x.run c = .error e ∨ ∃ r, x.run c = .ok r ∧ (f r.1).run r.2 = .error e := by
  change (x.run c >>= fun r => (f r.1).run r.2) = .error e at h
  cases hrun : x.run c with
  | error e' =>
    rw [hrun] at h
    obtain rfl := Except.error.inj h
    exact .inl rfl
  | ok r =>
    rw [hrun] at h
    exact .inr ⟨r, rfl, h⟩

/-- What follows a scan stands in front of what the scan left. -/
theorem EndsOn.bind {x : Scan ε α} {f : α → Scan ε β} (hx : x.EndsOn B text)
    (hf : ∀ a rest, x.read text = some (a, rest) → (f a).EndsOn B rest) :
    (x >>= f).EndsOn B text := by
  intro line e h
  rcases run_bind_error h with hfail | ⟨r, hrun, hfail⟩
  · exact hx line e hfail
  · exact (hf r.1 r.2.rest (read_of_run hrun) r.2.line e hfail).behind (x.moves hrun)

theorem Ends.bind {x : Scan ε α} {f : α → Scan ε β} (hx : x.Ends B) (hf : ∀ a, (f a).Ends B) :
    (x >>= f).Ends B := fun text => (hx text).bind fun a rest _ => hf a rest

def EndsBehind (B : Blame ε) (before : List Char) (x : Scan ε α) (text : List Char) : Prop :=
  ∀ line e, x.run ⟨text, line + before.count '\n'⟩ = .error e → B.Explains ⟨before ++ text, line⟩ e

section Behind
variable {before : List Char}

theorem EndsOn.endsBehind {x : Scan ε α} (h : x.EndsOn B text) : x.EndsBehind B before text :=
  fun _ e herror => (h _ e herror).behind ⟨before, rfl, rfl⟩

theorem EndsBehind.endsOn {x : Scan ε α} (h : x.EndsBehind B [] text) : x.EndsOn B text :=
  fun line e herror => h line e herror

theorem EndsBehind.fail {reason : ε} (h : B.on before text reason) :
    (Scan.fail reason : Scan ε α).EndsBehind B before text := by
  intro line e herror
  obtain rfl := Except.error.inj herror
  exact ⟨before, text, rfl, rfl, h⟩

/-- What follows a scan stands behind what the scan took. -/
theorem EndsBehind.bind {x : Scan ε α} {f : α → Scan ε β} (hx : x.EndsOn B text)
    (hf : ∀ a taken rest, x.read text = some (a, rest) → text = taken ++ rest →
      (f a).EndsBehind B (before ++ taken) rest) : (x >>= f).EndsBehind B before text := by
  intro line e h
  rcases run_bind_error h with hfail | ⟨r, hrun, hfail⟩
  · exact hx.endsBehind line e hfail
  · obtain ⟨taken, htext, hline⟩ := x.moves hrun
    have hbehind := hf r.1 taken r.2.rest (read_of_run hrun) htext line e
    rw [List.count_append, ← Nat.add_assoc] at hbehind
    have hexplains := hbehind (by rw [← hline]; exact hfail)
    rwa [List.append_assoc, ← htext] at hexplains

theorem EndsBehind.ite {p : Prop} [Decidable p] {x y : Scan ε α} (hx : p → x.EndsBehind B before text)
    (hy : ¬ p → y.EndsBehind B before text) : (if p then x else y).EndsBehind B before text := by
  by_cases hp : p
  · rw [if_pos hp]
    exact hx hp
  · rw [if_neg hp]
    exact hy hp

end Behind

theorem EndsOn.bind_fail {x : Scan ε α} {reason : α → ε} (hx : x.EndsOn B text)
    (hreason : ∀ a taken rest, x.read text = some (a, rest) → text = taken ++ rest →
      B.on taken rest (reason a)) :
    (x >>= fun a => Scan.fail (reason a) : Scan ε β).EndsOn B text :=
  EndsBehind.endsOn (.bind hx fun a taken rest hread htext => .fail (hreason a taken rest hread htext))

theorem EndsOn.ite {p : Prop} [Decidable p] {x y : Scan ε α} (hx : p → x.EndsOn B text)
    (hy : ¬ p → y.EndsOn B text) : (if p then x else y).EndsOn B text := by
  by_cases hp : p
  · rw [if_pos hp]
    exact hx hp
  · rw [if_neg hp]
    exact hy hp

theorem Ends.ite {p : Prop} [Decidable p] {x y : Scan ε α} (hx : x.Ends B) (hy : y.Ends B) :
    (if p then x else y).Ends B := fun text => .ite (fun _ => hx text) fun _ => hy text

theorem map_error {γ : Type} {out : Except (Failure ε) α} {f : α → γ} {e : Failure ε}
    (h : out.map f = .error e) : out = .error e := by
  cases out with
  | ok r => cases h
  | error e' => exact congrArg Except.error (Except.error.inj h)

theorem EndsOn.ahead {x : Scan ε α} (hx : x.EndsOn B text) : (Scan.ahead x).EndsOn B text :=
  fun line e h => hx line e (map_error h)

theorem EndsOn.taken {x : Scan ε α} (hx : x.EndsOn B text) : (Scan.taken x).EndsOn B text :=
  fun line e h => hx line e (map_error h)

/-- What is demanded and not there is blamed on the place the reading started at. -/
theorem EndsOn.demand {x : Scan ε (Option α)} {reason : ε} (hx : x.EndsOn B text)
    (hreason : ∀ rest, x.read text = some (none, rest) → B.on [] text reason) :
    (Scan.demand x reason).EndsOn B text := by
  intro line e h
  change (x.run ⟨text, line⟩ >>= orFail line reason) = .error e at h
  cases hrun : x.run ⟨text, line⟩ with
  | error e' =>
    rw [hrun] at h
    obtain rfl := Except.error.inj h
    exact hx line e' hrun
  | ok r =>
    rw [hrun] at h
    rcases r with ⟨value | a, c⟩
    · obtain rfl := Except.error.inj h
      exact ⟨[], text, rfl, rfl, hreason c.rest (read_of_run hrun)⟩
    · cases h

/-- A loop whose rounds end, and go on with less text than they found, ends. -/
theorem EndsOn.loop {body : σ → Scan ε (σ ⊕ α)} {P : σ → List Char → Prop}
    (hbody : ∀ s text, P s text → (body s).EndsOn B text ∧
      ∀ s' rest, (body s).read text = some (.inl s', rest) → rest.length < text.length ∧ P s' rest)
    {s : σ} (hs : P s text) : (Scan.loop body s).EndsOn B text := by
  refine EndsOn.bind (Ends.peek text) fun text' rest hpeek => ?_
  obtain ⟨rfl, rfl⟩ := Prod.mk.inj (Option.some.inj hpeek)
  have hiterate : ∀ n (t : List Char) s, t.length < n → P s t → (iterate body n s).EndsOn B t := by
    intro n
    induction n with
    | zero => exact fun t s hn => absurd hn (Nat.not_lt_zero _)
    | succ n ih =>
      intro t s hn hst
      obtain ⟨hends, hnext⟩ := hbody s t hst
      refine hends.bind fun out rest hread => ?_
      rcases out with s' | a
      · obtain ⟨hlt, hs'⟩ := hnext s' rest hread
        exact ih rest s' (Nat.lt_of_lt_of_le hlt (Nat.le_of_lt_succ hn)) hs'
      · exact Ends.pure a rest
  exact hiterate _ _ s (Nat.lt_succ_self _) hs

theorem Ends.loop {body : σ → Scan ε (σ ⊕ α)} (hbody : ∀ s, (body s).Ends B)
    (hconsumes : ∀ s, (body s).Consumes) (s : σ) : (Scan.loop body s).Ends B := by
  intro text
  refine EndsOn.loop (P := fun _ _ => True) (fun s text _ => ⟨hbody s text, fun s' rest hread => ?_⟩)
    trivial
  exact ⟨hconsumes s text s' rest hread, trivial⟩

/-- A scan that takes text off whenever it answers with one of the values. -/
def Shortens (x : Scan ε α) (P : α → Prop) : Prop :=
  ∀ text a rest, x.read text = some (a, rest) → P a → rest.length < text.length

/-- A round takes text off if its first scan does, or what follows it. -/
theorem Consumes.bind {x : Scan ε α} {f : α → Scan ε (σ ⊕ β)} {P : α → Prop} (hx : x.Shortens P)
    (hf : ∀ a, ¬ P a → (f a).Consumes) : (x >>= f).Consumes := by
  intro text s rest h
  rw [read_bind] at h
  obtain ⟨r, hr, h⟩ := Option.bind_eq_some_iff.mp h
  by_cases hP : P r.1
  · exact Nat.lt_of_le_of_lt (read_length_le h) (hx text r.1 r.2 hr hP)
  · exact Nat.lt_of_lt_of_le (hf r.1 hP r.2 s rest h) (read_length_le hr)

/-- Nothing that follows gives the text back that the first scan took. -/
theorem Consumes.first {x : Scan ε α} {f : α → Scan ε (σ ⊕ β)} (hx : x.Shortens fun _ => True) :
    (x >>= f).Consumes := .bind hx fun _ hnot => absurd trivial hnot

/-- What follows a scan that need not take anything off. -/
theorem Consumes.after {x : Scan ε α} {f : α → Scan ε (σ ⊕ β)} (hf : ∀ a, (f a).Consumes) :
    (x >>= f).Consumes :=
  .bind (fun _ _ _ _ (hfalse : False) => hfalse.elim) fun a _ => hf a

theorem Consumes.ite {p : Prop} [Decidable p] {x y : Scan ε (σ ⊕ α)} (hx : p → x.Consumes)
    (hy : ¬ p → y.Consumes) : (if p then x else y).Consumes := by
  by_cases hp : p
  · rw [if_pos hp]
    exact hx hp
  · rw [if_neg hp]
    exact hy hp

/-- A round that ends the loop. -/
theorem Consumes.done (a : α) : (pure (.inr a) : Scan ε (σ ⊕ α)).Consumes := by
  intro text s rest h
  cases h

theorem Shortens.bind {x : Scan ε α} {f : α → Scan ε β} {P : α → Prop} {Q : β → Prop}
    (hx : x.Shortens P) (hf : ∀ a, ¬ P a → (f a).Shortens Q) : (x >>= f).Shortens Q := by
  intro text b rest h hb
  rw [read_bind] at h
  obtain ⟨r, hr, h⟩ := Option.bind_eq_some_iff.mp h
  by_cases hP : P r.1
  · exact Nat.lt_of_le_of_lt (read_length_le h) (hx text r.1 r.2 hr hP)
  · exact Nat.lt_of_lt_of_le (hf r.1 hP r.2 b rest h hb) (read_length_le hr)

theorem Shortens.first {x : Scan ε α} {f : α → Scan ε β} {Q : β → Prop}
    (hx : x.Shortens fun _ => True) : (x >>= f).Shortens Q :=
  .bind hx fun _ hnot => absurd trivial hnot

end Scan

end Uniorm.Foundation
