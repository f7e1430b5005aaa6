import Uniorm.Foundation.Blame
import Uniorm.Foundation.Dangling
import Uniorm.Foundation.Text

/-! # Walks over a text by position

A walk reads the text where it says and moves to the places it says. To read
where the text has no character is a fault of the walk. `Goes` says what a walk
does from the place behind a front of the text: without a fault it comes to what
is said of the rest, and every place it passes has the number of its line.
-/
namespace Uniorm.Foundation

variable {ε α β σ : Type}

structure Spot where
  offset : ℕ := 0
  line : ℕ := 1
  deriving DecidableEq, Repr

/-- In the text, with the number of the line it is on. -/
structure Spot.Sound (text : List Char) (s : Spot) : Prop where
  le : s.offset ≤ text.length
  line_eq : s.line = 1 + (text.take s.offset).count '\n'

def Spot.behind (front : List Char) : Spot := ⟨front.length, 1 + front.count '\n'⟩

theorem Spot.behind_sound (front rest : List Char) : (behind front).Sound (front ++ rest) := by
  constructor
  · simp [behind]
  · rw [behind, List.take_left]

/-- What ends a walk before it comes to a value. -/
inductive Stop (ε : Type) where
  | thrown (line : ℕ) (reason : ε)
  /-- A character was asked for that the text does not have. -/
  | outside (index : ℕ)
  | stuck
  deriving DecidableEq, Repr

/-- The places a walk passed, and what it came to. -/
structure Outcome (ε α : Type) where
  passed : List Spot
  result : Except (Stop ε) (α × Spot)

def Outcome.andThen (out : Outcome ε α) (f : α → Spot → Outcome ε β) : Outcome ε β :=
  match out.result with
  | .error e => ⟨out.passed, .error e⟩
  | .ok (a, s) => ⟨out.passed ++ (f a s).passed, (f a s).result⟩

theorem Outcome.andThen_assoc {γ : Type} (out : Outcome ε α) (f : α → Spot → Outcome ε β)
    (g : β → Spot → Outcome ε γ) :
    (out.andThen f).andThen g = out.andThen fun a s => (f a s).andThen g := by
  rcases out with ⟨passed, e | ⟨a, s⟩⟩
  · rfl
  · simp only [andThen]
    rcases f a s with ⟨passed', e' | ⟨b, s'⟩⟩ <;> simp

@[ext] structure Walk (ε α : Type) where
  run : List Char → Spot → Outcome ε α

namespace Walk

instance : Monad (Walk ε) where
  pure a := ⟨fun _ s => ⟨[], .ok (a, s)⟩⟩
  bind x f := ⟨fun text s => (x.run text s).andThen fun a => (f a).run text⟩

def spot : Walk ε Spot := ⟨fun _ s => ⟨[], .ok (s, s)⟩⟩

def moveTo (s : Spot) : Walk ε Unit := ⟨fun _ _ => ⟨[s], .ok ((), s)⟩⟩

def throwAt (line : ℕ) (reason : ε) : Walk ε α := ⟨fun _ _ => ⟨[], .error (.thrown line reason)⟩⟩

def orThrowAt (line : ℕ) (reason : ε) : Option α → Walk ε α
  | some a => pure a
  | none => throwAt line reason

def stuck : Walk ε α := ⟨fun _ _ => ⟨[], .error .stuck⟩⟩

def size : Walk ε ℕ := ⟨fun text s => ⟨[], .ok (text.length, s)⟩⟩

def charAt (index : ℕ) : Walk ε Char :=
  ⟨fun text s =>
    match text[index]? with
    | some c => ⟨[], .ok (c, s)⟩
    | none => ⟨[], .error (.outside index)⟩⟩

/-- Some of the text from a place on, which may be the end of it but not behind that. -/
def substr (start count : ℕ) : Walk ε (List Char) :=
  ⟨fun text s =>
    if start ≤ text.length then ⟨[], .ok ((text.drop start).take count, s)⟩
    else ⟨[], .error (.outside start)⟩⟩

/-- The first place, from an index on, of what is read where a word was that is gone. -/
def findGone [Dangling] (word : List Char) (start : ℕ) : Walk ε (Option ℕ) :=
  ⟨fun text s =>
    ⟨[], .ok ((Dangling.search word (text.drop start)).map fun r => start + r.1.length, s)⟩⟩

def throw (reason : ε) : Walk ε α := do
  let s ← spot
  throwAt s.line reason

def atEnd : Walk ε Bool := do
  let s ← spot
  let n ← size
  pure (decide (n ≤ s.offset))

def current : Walk ε Char := do
  let s ← spot
  charAt s.offset

def holdsAt (index : ℕ) (p : Char → Bool) : Walk ε Bool := do
  let n ← size
  if index < n then
    let ch ← charAt index
    pure (p ch)
  else pure false

def holdsAhead (distance : ℕ) (p : Char → Bool) : Walk ε Bool := do
  let s ← spot
  holdsAt (s.offset + distance) p

def andAhead (p : Bool) (distance : ℕ) (q : Char → Bool) : Walk ε Bool :=
  if p then holdsAhead distance q else pure false

def iterate (body : σ → Walk ε (σ ⊕ α)) : ℕ → σ → Walk ε α
  | 0, _ => stuck
  | n + 1, s => body s >>= Sum.elim (iterate body n) pure

theorem iterate_succ (body : σ → Walk ε (σ ⊕ α)) (n : ℕ) (s : σ) :
    iterate body (n + 1) s = body s >>= Sum.elim (iterate body n) pure := rfl

/-- Go round until the body answers with a value, once more than there are characters to come. -/
def loop (body : σ → Walk ε (σ ⊕ α)) (s : σ) : Walk ε α := do
  let place ← spot
  let n ← size
  iterate body (n - place.offset + 1) s

def advance : ℕ → Walk ε Unit
  | 0 => pure ()
  | count + 1 => do
    let ended ← atEnd
    if ended then pure ()
    else
      let s ← spot
      let ch ← current
      moveTo ⟨s.offset + 1, if ch = '\n' then s.line + 1 else s.line⟩
      advance count

def advanceWhile (p : Char → Bool) : Walk ε Unit :=
  loop (fun _ => do
    let more ← holdsAhead 0 p
    if more then
      advance 1
      pure (.inl ())
    else pure (.inr ())) ()

def seekWhile (p : Char → Bool) (index : ℕ) : Walk ε ℕ :=
  loop (fun index => do
    let more ← holdsAt index p
    pure (if more then .inl (index + 1) else .inr index)) index

/-- Do something, and go back to where it was done from. -/
def probe (x : Walk ε α) : Walk ε α := do
  let before ← spot
  let a ← x
  moveTo before
  pure a

/-- What a walk over a front comes to, where it comes to what is said of the rest. -/
inductive Tells (front rest : List Char) :
    Except (Failure ε) (α × Cursor) → Except (Stop ε) (α × Spot) → Prop where
  | ok {a : α} {taken rest' : List Char} (h : rest = taken ++ rest') :
    Tells front rest (.ok (a, ⟨rest', 1 + (front ++ taken).count '\n'⟩))
      (.ok (a, .behind (front ++ taken)))
  | thrown {line : ℕ} {reason : ε} :
    Tells front rest (.error (.at line reason)) (.error (.thrown line reason))
  | stuck : Tells front rest (.error .stuck) (.error .stuck)

structure Goes (x : Walk ε α) (front rest : List Char)
    (run : Except (Failure ε) (α × Cursor)) : Prop where
  passed : ∀ s ∈ (x.run (front ++ rest) (.behind front)).passed, s.Sound (front ++ rest)
  result : Tells front rest run (x.run (front ++ rest) (.behind front)).result

section Goes
variable {x : Walk ε α} {f : α → Walk ε β} {front rest : List Char}
  {run : Except (Failure ε) (β × Cursor)}

theorem Goes.congr {x x' : Walk ε α} {run : Except (Failure ε) (α × Cursor)}
    (h : x.Goes front rest run)
    (heq : x'.run (front ++ rest) (.behind front) = x.run (front ++ rest) (.behind front)) :
    x'.Goes front rest run := by
  constructor
  · rw [heq]
    exact h.passed
  · rw [heq]
    exact h.result

theorem Goes.pure (a : α) :
    (pure a : Walk ε α).Goes front rest (.ok (a, ⟨rest, 1 + front.count '\n'⟩)) := by
  refine ⟨fun _ hs => (List.not_mem_nil hs).elim, ?_⟩
  have htells : Tells front rest (.ok (a, ⟨rest, 1 + (front ++ []).count '\n'⟩))
      (.ok (a, .behind (front ++ [])) : Except (Stop ε) (α × Spot)) := .ok (List.nil_append rest).symm
  rw [List.append_nil] at htells
  exact htells

theorem Goes.throwAt (line : ℕ) (reason : ε) :
    (throwAt line reason : Walk ε α).Goes front rest (.error (.at line reason)) :=
  ⟨fun _ hs => (List.not_mem_nil hs).elim, .thrown⟩

theorem Goes.throw (reason : ε) : (throw reason : Walk ε α).Goes front rest
    (.error (.at (1 + front.count '\n') reason)) :=
  (Goes.throwAt _ reason).congr rfl

theorem run_bind (text : List Char) (s : Spot) :
    (x >>= f).run text s = (x.run text s).andThen fun a => (f a).run text := rfl

theorem bind_assoc {γ : Type} (x : Walk ε α) (f : α → Walk ε β) (g : β → Walk ε γ) :
    x >>= f >>= g = x >>= fun a => f a >>= g := by
  ext1
  funext text s
  exact Outcome.andThen_assoc (x.run text s) _ _

theorem Goes.error {e : Failure ε} (h : x.Goes front rest (.error e)) :
    (x >>= f).Goes front rest (.error e) := by
  obtain ⟨hpassed, hresult⟩ := h
  have hbind := run_bind (x := x) (f := f) (front ++ rest) (.behind front)
  generalize x.run (front ++ rest) (.behind front) = out at hpassed hresult hbind
  obtain ⟨passed, result⟩ := out
  cases hresult with
  | thrown => exact ⟨by rw [hbind]; exact hpassed, by rw [hbind]; exact .thrown⟩
  | stuck => exact ⟨by rw [hbind]; exact hpassed, by rw [hbind]; exact .stuck⟩

/-- What follows a walk goes from where the walk came to. -/
theorem Goes.bind {a : α} {c : Cursor} (h : x.Goes front rest (.ok (a, c)))
    (hf : ∀ taken, rest = taken ++ c.rest → c.line = 1 + (front ++ taken).count '\n' →
      (f a).Goes (front ++ taken) c.rest run) : (x >>= f).Goes front rest run := by
  obtain ⟨hpassed, hresult⟩ := h
  have hbind := run_bind (x := x) (f := f) (front ++ rest) (.behind front)
  generalize x.run (front ++ rest) (.behind front) = out at hpassed hresult hbind
  obtain ⟨passed, result⟩ := out
  cases hresult with
  | @ok _ taken rest' htext =>
    obtain ⟨hmore, hnext⟩ := hf taken htext rfl
    subst htext
    rw [List.append_assoc] at hmore hnext
    refine ⟨fun s hs => ?_, ?_⟩
    · rw [hbind] at hs
      rcases List.mem_append.mp hs with hs | hs
      · exact hpassed s hs
      · exact hmore s hs
    · rw [hbind]
      change Tells front (taken ++ rest') run ((f a).run (front ++ (taken ++ rest')) _).result
      generalize ((f a).run (front ++ (taken ++ rest')) (.behind (front ++ taken))).result = last at hnext
      cases hnext with
      | @ok b taken' rest'' htext' =>
        subst htext'
        rw [List.append_assoc front taken taken']
        exact .ok (List.append_assoc taken taken' rest'').symm
      | thrown => exact .thrown
      | stuck => exact .stuck

theorem Goes.spot {f : Spot → Walk ε β} (h : (f (.behind front)).Goes front rest run) :
    (Walk.spot >>= f).Goes front rest run := h.congr rfl

theorem run_atEnd (front rest : List Char) : (Walk.atEnd : Walk ε Bool).run (front ++ rest)
    (.behind front) = ⟨[], .ok (rest.isEmpty, .behind front)⟩ := by
  have hended : decide ((front ++ rest).length ≤ front.length) = rest.isEmpty := by
    cases rest <;> simp
  rw [← hended]
  rfl

theorem run_charAt {k : ℕ} {c : Char} (h : rest[k]? = some c) :
    (Walk.charAt (front.length + k) : Walk ε Char).run (front ++ rest) (.behind front) =
      ⟨[], .ok (c, .behind front)⟩ := by
  have hchar : (front ++ rest)[front.length + k]? = some c := by
    rw [List.getElem?_append_right (Nat.le_add_right _ _), Nat.add_sub_cancel_left, h]
  simp [Walk.charAt, hchar]

theorem run_holdsAt (front rest : List Char) (k : ℕ) (p : Char → Bool) :
    (Walk.holdsAt (front.length + k) p : Walk ε Bool).run (front ++ rest) (.behind front) =
      ⟨[], .ok (rest[k]?.any p, .behind front)⟩ := by
  have hlength : front.length + k < (front ++ rest).length ↔ k < rest.length := by
    rw [List.length_append, Nat.add_lt_add_iff_left]
  change Walk.run (if front.length + k < (front ++ rest).length then
    Walk.charAt (front.length + k) >>= fun ch => Pure.pure (p ch) else Pure.pure false) _ _ = _
  by_cases hk : k < rest.length
  · have hchar := List.getElem?_eq_getElem hk
    rw [if_pos (hlength.mpr hk), run_bind, run_charAt hchar, hchar]
    rfl
  · rw [if_neg (mt hlength.mp hk), List.getElem?_eq_none (Nat.le_of_not_lt hk)]
    rfl

theorem Goes.look {a : α}
    (hlook : x.run (front ++ rest) (.behind front) = ⟨[], .ok (a, .behind front)⟩)
    (h : (f a).Goes front rest run) : (x >>= f).Goes front rest run := by
  refine h.congr ?_
  rw [run_bind, hlook]
  rfl

theorem run_size (front rest : List Char) : (Walk.size : Walk ε ℕ).run (front ++ rest)
    (.behind front) = ⟨[], .ok (front.length + rest.length, .behind front)⟩ := by
  rw [← List.length_append]
  rfl

theorem run_substr (front : List Char) {rest : List Char} {k : ℕ} (h : k ≤ rest.length) (count : ℕ) :
    (Walk.substr (front.length + k) count : Walk ε (List Char)).run (front ++ rest) (.behind front) =
      ⟨[], .ok ((rest.drop k).take count, .behind front)⟩ := by
  simp [Walk.substr, h]

theorem run_findGone [Dangling] (front rest word : List Char) (k : ℕ) :
    (Walk.findGone word (front.length + k) : Walk ε (Option ℕ)).run (front ++ rest) (.behind front) =
      ⟨[], .ok ((Dangling.search word (rest.drop k)).map fun r => front.length + k + r.1.length,
        .behind front)⟩ := by
  simp [Walk.findGone]

theorem Goes.atEnd {f : Bool → Walk ε β} (h : (f rest.isEmpty).Goes front rest run) :
    (Walk.atEnd >>= f).Goes front rest run := .look (run_atEnd front rest) h

theorem run_current (front : List Char) (c : Char) (cs : List Char) :
    (Walk.current : Walk ε Char).run (front ++ c :: cs) (.behind front) =
      ⟨[], .ok (c, .behind front)⟩ := run_charAt (k := 0) rfl

theorem run_holdsAhead (front rest : List Char) (k : ℕ) (p : Char → Bool) :
    (Walk.holdsAhead k p : Walk ε Bool).run (front ++ rest) (.behind front) =
      ⟨[], .ok (rest[k]?.any p, .behind front)⟩ := run_holdsAt front rest k p

theorem run_andAhead (front rest : List Char) (p : Bool) (k : ℕ) (q : Char → Bool) :
    (Walk.andAhead p k q : Walk ε Bool).run (front ++ rest) (.behind front) =
      ⟨[], .ok (p && rest[k]?.any q, .behind front)⟩ := by
  cases p with
  | true => exact run_holdsAhead front rest k q
  | false => rfl

theorem Goes.andAhead {f : Bool → Walk ε β} {p : Bool} {k : ℕ} {q : Char → Bool}
    (h : (f (p && rest[k]?.any q)).Goes front rest run) :
    (Walk.andAhead p k q >>= f).Goes front rest run := .look (run_andAhead front rest p k q) h

theorem Goes.current {f : Char → Walk ε β} {c : Char} {cs : List Char}
    (h : (f c).Goes front (c :: cs) run) : (Walk.current >>= f).Goes front (c :: cs) run :=
  .look (run_current front c cs) h

theorem Goes.holdsAhead {f : Bool → Walk ε β} {k : ℕ} {p : Char → Bool}
    (h : (f (rest[k]?.any p)).Goes front rest run) :
    (Walk.holdsAhead k p >>= f).Goes front rest run := .look (run_holdsAhead front rest k p) h

/-- A step forward. -/
theorem Goes.moveTo (taken rest' : List Char) :
    (Walk.moveTo (.behind (front ++ taken)) : Walk ε Unit).Goes front (taken ++ rest')
      (.ok ((), ⟨rest', 1 + (front ++ taken).count '\n'⟩)) := by
  refine ⟨fun s hs => ?_, .ok rfl⟩
  rw [List.mem_singleton.mp hs, ← List.append_assoc]
  exact Spot.behind_sound _ _

theorem behind_over (front : List Char) (c : Char) : Spot.behind (front ++ [c]) =
    ⟨(Spot.behind front).offset + 1,
      if c = '\n' then (Spot.behind front).line + 1 else (Spot.behind front).line⟩ := by
  by_cases hc : c = '\n' <;> simp [Spot.behind, hc, Nat.add_assoc]

def past (front rest : List Char) (count : ℕ) : Cursor :=
  ⟨rest.drop count, 1 + (front ++ rest.take count).count '\n'⟩

theorem past_zero (front rest : List Char) :
    past front rest 0 = ⟨rest, 1 + front.count '\n'⟩ := by
  simp [past]

theorem past_nil (front : List Char) (count : ℕ) :
    past front [] count = ⟨[], 1 + front.count '\n'⟩ := by
  simp [past]

theorem past_cons (front : List Char) (c : Char) (cs : List Char) (count : ℕ) :
    past front (c :: cs) (count + 1) = past (front ++ [c]) cs count := by
  simp [past]

theorem Goes.advance (count : ℕ) :
    (Walk.advance count : Walk ε Unit).Goes front rest (.ok ((), past front rest count)) := by
  induction count generalizing front rest with
  | zero =>
    rw [past_zero]
    exact .pure ()
  | succ count ih =>
    refine .atEnd ?_
    cases rest with
    | nil =>
      rw [past_nil]
      exact .pure ()
    | cons c cs =>
      refine .spot (.current ?_)
      rw [← behind_over front c]
      refine (Goes.moveTo [c] cs).bind fun taken htaken _ => ?_
      obtain rfl := List.append_cancel_right (htaken.symm.trans (List.singleton_append ..).symm)
      rw [past_cons]
      exact ih

theorem run_loop (body : σ → Walk ε (σ ⊕ β)) (s : σ) (text : List Char) (place : Spot) :
    (Walk.loop body s).run text place =
      (iterate body (text.length - place.offset + 1) s).run text place := rfl

theorem Goes.loop {body : σ → Walk ε (σ ⊕ β)} {s : σ}
    (h : (iterate body (rest.length + 1) s).Goes front rest run) :
    (Walk.loop body s).Goes front rest run := by
  refine h.congr ?_
  rw [run_loop, Spot.behind, List.length_append, Nat.add_sub_cancel_left]

theorem past_add (front rest : List Char) (m n : ℕ) :
    past (front ++ rest.take m) (rest.drop m) n = past front rest (m + n) := by
  rw [past, past, List.append_assoc, List.take_add, List.drop_drop]

theorem Goes.stay (a : α) :
    (Pure.pure a : Walk ε α).Goes front rest (.ok (a, past front rest 0)) := by
  rw [past_zero]
  exact .pure a

theorem Goes.bindOver {a : α} {count : ℕ} (h : x.Goes front rest (.ok (a, past front rest count)))
    (hf : (f a).Goes (front ++ rest.take count) (rest.drop count) run) :
    (x >>= f).Goes front rest run := by
  refine h.bind fun taken htext _ => ?_
  obtain rfl : taken = rest.take count :=
    List.append_cancel_right (htext.symm.trans (List.take_append_drop count rest).symm)
  exact hf

theorem Goes.answer {a : α} {b : β} {count : ℕ}
    (h : x.Goes front rest (.ok (a, past front rest count))) (hf : f a = Pure.pure b) :
    (x >>= f).Goes front rest (.ok (b, past front rest count)) := by
  have hstay : (Pure.pure b : Walk ε β).Goes (front ++ rest.take count) (rest.drop count)
      (.ok (b, past (front ++ rest.take count) (rest.drop count) 0)) := .stay b
  rw [← hf, past_add] at hstay
  exact h.bindOver hstay

/-- So many characters, and so many more. -/
theorem Goes.thenOver {a : α} {b : β} {m n : ℕ} (h : x.Goes front rest (.ok (a, past front rest m)))
    (hf : (f a).Goes (front ++ rest.take m) (rest.drop m)
      (.ok (b, past (front ++ rest.take m) (rest.drop m) n))) :
    (x >>= f).Goes front rest (.ok (b, past front rest (m + n))) := by
  rw [past_add] at hf
  exact h.bindOver hf

/-- The text from one place to another. -/
theorem Goes.between {x : Walk ε Unit} {count : ℕ} (hle : count ≤ rest.length)
    (h : x.Goes front rest (.ok ((), past front rest count))) : (Walk.spot >>= fun start =>
      x >>= fun _ => Walk.spot >>= fun stop =>
        Walk.substr start.offset (stop.offset - start.offset)).Goes front rest
          (.ok (rest.take count, past front rest count)) := by
  refine .spot (h.bindOver (.spot ?_))
  have hstay : (Pure.pure (rest.take count) : Walk ε (List Char)).Goes (front ++ rest.take count)
      (rest.drop count) (.ok (rest.take count, past (front ++ rest.take count) (rest.drop count) 0)) :=
    .stay _
  rw [past_add] at hstay
  refine hstay.congr ?_
  simp [Walk.substr, Spot.behind, Pure.pure, hle]

/-- One round of a loop, and what the loop comes to from there. -/
inductive Round (body : σ → Walk ε (σ ⊕ β))
    (result : σ → List Char → List Char → Except (Failure ε) (β × Cursor)) (s : σ)
    (front rest : List Char) : Prop where
  | stop {b : β} {k : ℕ} (h : (body s).Goes front rest (.ok (.inr b, past front rest k)))
    (hresult : result s front rest = .ok (b, past front rest k)) : Round body result s front rest
  | fail {e : Failure ε} (h : (body s).Goes front rest (.error e))
    (hresult : result s front rest = .error e) : Round body result s front rest
  | again {t : σ} {k : ℕ}
    (h : (body s).Goes front rest (.ok (.inl t, past front rest k)))
    (hless : (rest.drop k).length < rest.length)
    (hresult : result s front rest = result t (front ++ rest.take k) (rest.drop k)) :
    Round body result s front rest

theorem Goes.rounds {body : σ → Walk ε (σ ⊕ β)}
    (result : σ → List Char → List Char → Except (Failure ε) (β × Cursor))
    (h : ∀ s front rest, Round body result s front rest) (s : σ) (front rest : List Char) :
    (Walk.loop body s).Goes front rest (result s front rest) := by
  have hiterate : ∀ n s front rest, rest.length < n →
      (iterate body n s).Goes front rest (result s front rest) := by
    intro n
    induction n with
    | zero => exact fun _ _ _ hn => absurd hn (Nat.not_lt_zero _)
    | succ n ih =>
      intro s front rest hn
      cases h s front rest with
      | stop h hresult =>
        rw [hresult]
        exact h.answer rfl
      | fail h hresult =>
        rw [hresult]
        exact h.error
      | again h hless hresult =>
        rw [hresult]
        exact h.bindOver (ih _ _ _ (Nat.lt_of_lt_of_le hless (Nat.le_of_lt_succ hn)))
  exact .loop (hiterate _ s front rest (Nat.lt_succ_self _))

theorem drop_cons_lt (c : Char) (cs : List Char) {count : ℕ} (h : 0 < count) :
    ((c :: cs).drop count).length < (c :: cs).length := by
  rw [List.length_drop, List.length_cons]
  omega

theorem Goes.whileHolds (p : Char → Bool) {move : Walk ε Unit}
    (hmove : ∀ front c cs, p c = true → move.Goes front (c :: cs) (.ok ((), past front (c :: cs) 1)))
    (front rest : List Char) : (Walk.loop (fun _ => Walk.holdsAhead 0 p >>= fun more =>
      if more then move >>= fun _ => Pure.pure (.inl ()) else Pure.pure (.inr ())) ()).Goes front rest
        (.ok ((), past front rest (rest.takeWhile p).length)) := by
  refine Goes.rounds (fun _ front rest => .ok ((), past front rest
    (rest.takeWhile p).length)) (fun _ front rest => ?_) () front rest
  cases rest with
  | nil => exact .stop (k := 0) (.holdsAhead (.stay _)) rfl
  | cons c cs =>
    cases hc : p c with
    | true =>
      refine .again (t := ()) (k := 1) (.holdsAhead ?_) (drop_cons_lt c cs Nat.one_pos) ?_
      · rw [show ((c :: cs)[0]?.any p) = true from hc, if_pos rfl]
        exact (hmove front c cs hc).answer rfl
      · rw [List.takeWhile_cons_of_pos hc, past_add, List.length_cons, Nat.add_comm]
        rfl
    | false =>
      refine .stop (b := ()) (k := 0) (.holdsAhead ?_) ?_
      · rw [show ((c :: cs)[0]?.any p) = false from hc, if_neg Bool.false_ne_true]
        exact .stay _
      · rw [List.takeWhile_cons_of_neg (Bool.eq_false_iff.mp hc)]
        rfl

theorem Goes.advanceWhile (p : Char → Bool) : (Walk.advanceWhile p : Walk ε Unit).Goes front rest
    (.ok ((), past front rest (rest.takeWhile p).length)) :=
  Goes.whileHolds p (fun _ _ _ _ => .advance 1) front rest

theorem run_seekWhile (p : Char → Bool) {k : ℕ} (hle : k ≤ rest.length) :
    (Walk.seekWhile p (front.length + k) : Walk ε ℕ).run (front ++ rest) (.behind front) =
      ⟨[], .ok (front.length + (k + ((rest.drop k).takeWhile p).length), .behind front)⟩ := by
  have hbound : rest.length - k < (front ++ rest).length - front.length + 1 := by
    rw [List.length_append]
    omega
  rw [Walk.seekWhile, run_loop]
  change Walk.run (iterate _ ((front ++ rest).length - front.length + 1) _) _ _ = _
  generalize (front ++ rest).length - front.length + 1 = n at hbound
  induction n generalizing k with
  | zero => exact absurd hbound (Nat.not_lt_zero _)
  | succ n ih =>
    rw [iterate_succ, run_bind, run_bind, run_holdsAt]
    cases hc : rest[k]?.any p with
    | true =>
      have hlt : k < rest.length := by
        by_contra hge
        rw [List.getElem?_eq_none (Nat.le_of_not_lt hge)] at hc
        cases hc
      have hmore : p rest[k] = true := by
        rw [List.getElem?_eq_getElem hlt] at hc
        exact hc
      have hstep := ih (k := k + 1) hlt (by omega)
      rw [Nat.add_right_comm] at hstep
      rw [List.drop_eq_getElem_cons hlt, List.takeWhile_cons_of_pos hmore, List.length_cons,
        ← Nat.add_assoc k]
      exact hstep
    | false =>
      have hnone : (rest.drop k).takeWhile p = [] := by
        rw [← List.head?_drop] at hc
        cases hdrop : rest.drop k with
        | nil => rfl
        | cons d ds =>
          rw [hdrop] at hc
          exact List.takeWhile_cons_of_neg (Bool.eq_false_iff.mp hc)
      rw [hnone]
      rfl

end Goes

def ImplementsAt (x : Walk ε α) (y : Scan ε α) (front rest : List Char) : Prop :=
  x.Goes front rest (y.run ⟨rest, 1 + front.count '\n'⟩)

def Implements (x : Walk ε α) (y : Scan ε α) : Prop := ∀ front rest, x.ImplementsAt y front rest

section Implements
variable {x : Walk ε α} {y : Scan ε α} {f : α → Walk ε β} {g : α → Scan ε β}
  {front rest : List Char}

theorem Implements.pure (a : α) : (pure a : Walk ε α).Implements (pure a) :=
  fun _ _ => Goes.pure a

theorem Implements.throw (reason : ε) : (throw reason : Walk ε α).Implements (Scan.fail reason) :=
  fun _ _ => Goes.throw reason

theorem run_advance (front rest : List Char) (count : ℕ) :
    (Scan.advance count : Scan ε Unit).run ⟨rest, 1 + front.count '\n'⟩ =
      .ok ((), past front rest count) := by
  rw [past, List.count_append, ← Nat.add_assoc]
  rfl

theorem run_advance_pure (front rest : List Char) (count : ℕ) (a : α) :
    (Scan.advance count >>= fun _ => Pure.pure a : Scan ε α).run ⟨rest, 1 + front.count '\n'⟩ =
      .ok (a, past front rest count) := by
  change ((Scan.advance count).run _ >>= _) = _
  rw [run_advance]
  rfl

theorem Implements.advance (count : ℕ) :
    (Walk.advance count : Walk ε Unit).Implements (Scan.advance count) := by
  intro front rest
  rw [ImplementsAt, run_advance]
  exact .advance count

theorem ImplementsAt.bind (h : x.ImplementsAt y front rest)
    (hf : ∀ a taken rest', rest = taken ++ rest' → y.read rest = some (a, rest') →
      (f a).ImplementsAt (g a) (front ++ taken) rest') :
    (x >>= f).ImplementsAt (y >>= g) front rest := by
  rw [ImplementsAt] at h
  change (x >>= f).Goes front rest (y.run ⟨rest, _⟩ >>= fun r => (g r.1).run r.2)
  cases hrun : y.run ⟨rest, 1 + front.count '\n'⟩ with
  | error e =>
    rw [hrun] at h
    exact h.error
  | ok r =>
    rw [hrun] at h
    obtain ⟨a, ⟨rest', line⟩⟩ := r
    refine h.bind fun taken htext hline => ?_
    have hnext := hf a taken rest' htext (Scan.read_of_run hrun)
    obtain rfl : line = _ := hline
    exact hnext

theorem Implements.bind (h : x.Implements y) (hf : ∀ a, (f a).Implements (g a)) :
    (x >>= f).Implements (y >>= g) :=
  fun front rest => (h front rest).bind fun a taken rest' _ _ => hf a (front ++ taken) rest'

theorem scan_bind_assoc {γ : Type} (y : Scan ε α) (g : α → Scan ε β) (h : β → Scan ε γ) :
    y >>= g >>= h = y >>= fun a => g a >>= h := by
  ext1
  funext c
  change (y.run c >>= fun r => (g r.1).run r.2) >>= (fun r => (h r.1).run r.2) =
    y.run c >>= fun r => (g r.1).run r.2 >>= fun r => (h r.1).run r.2
  cases y.run c <;> rfl

theorem scan_run_same {a : α} {text : List Char} {line : ℕ} (h : y.read text = some (a, text)) :
    y.run ⟨text, line⟩ = .ok (a, ⟨text, line⟩) := by
  have hread := Scan.forgetLines_run y ⟨text, line⟩
  rw [h] at hread
  cases hrun : y.run ⟨text, line⟩ with
  | error e =>
    rw [hrun] at hread
    cases hread
  | ok r =>
    obtain ⟨b, ⟨text', line'⟩⟩ := r
    rw [hrun] at hread
    obtain ⟨hvalue, hrest⟩ := Prod.mk.inj (Option.some.inj hread)
    obtain rfl : b = a := hvalue
    obtain rfl : text' = text := hrest
    obtain ⟨taken, htext, hline⟩ := y.moves hrun
    obtain rfl : taken = [] := List.append_cancel_right htext.symm
    obtain rfl : line' = line := hline
    rfl

/-- The text that is looked at is the rest of it. -/
theorem ImplementsAt.peek {x : Walk ε α} {g : List Char → Scan ε α}
    (h : x.ImplementsAt (g rest) front rest) : x.ImplementsAt (Scan.peek >>= g) front rest := h

theorem ImplementsAt.ite {p q : Prop} [Decidable p] [Decidable q] {x' : Walk ε α} {y' : Scan ε α}
    (hpq : p ↔ q) (h : q → x.ImplementsAt y front rest) (h' : ¬ q → x'.ImplementsAt y' front rest) :
    (if p then x else x').ImplementsAt (if q then y else y') front rest := by
  by_cases hq : q
  · rw [if_pos hq, if_pos (hpq.mpr hq)]
    exact h hq
  · rw [if_neg hq, if_neg (mt hpq.mp hq)]
    exact h' hq

theorem Implements.ite {p q : Prop} [Decidable p] [Decidable q] {x' : Walk ε α} {y' : Scan ε α}
    (hpq : p ↔ q) (h : x.Implements y) (h' : x'.Implements y') :
    (if p then x else x').Implements (if q then y else y') :=
  fun front rest => .ite hpq (fun _ => h front rest) fun _ => h' front rest

theorem Implements.iterate {body : σ → Walk ε (σ ⊕ α)} {body' : σ → Scan ε (σ ⊕ α)}
    (h : ∀ s, (body s).Implements (body' s)) (n : ℕ) (s : σ) :
    (iterate body n s).Implements (Scan.iterate body' n s) := by
  induction n generalizing s with
  | zero => exact fun front rest => ⟨fun _ hs => (List.not_mem_nil hs).elim, .stuck⟩
  | succ n ih =>
    refine .bind (h s) fun out => ?_
    cases out with
    | inl s' => exact ih s'
    | inr a => exact .pure a

theorem Implements.loop {body : σ → Walk ε (σ ⊕ α)} {body' : σ → Scan ε (σ ⊕ α)}
    (h : ∀ s, (body s).Implements (body' s)) (s : σ) :
    (Walk.loop body s).Implements (Scan.loop body' s) :=
  fun front rest => Goes.loop (Implements.iterate h (rest.length + 1) s front rest)

/-- What is demanded and not there is told on the line it was looked for from. -/
theorem Implements.demand {x : Walk ε (Option α)} {y : Scan ε (Option α)} (h : x.Implements y)
    (reason : ε) : (Walk.spot >>= fun start => x >>= orThrowAt start.line reason).Implements
      (Scan.demand y reason) := by
  intro front rest
  have hx := h front rest
  rw [ImplementsAt] at hx
  refine .spot ?_
  change Goes _ front rest (y.run ⟨rest, _⟩ >>= Scan.orFail _ reason)
  cases hrun : y.run ⟨rest, 1 + front.count '\n'⟩ with
  | error e =>
    rw [hrun] at hx
    exact hx.error
  | ok r =>
    rw [hrun] at hx
    obtain ⟨out, ⟨rest', line⟩⟩ := r
    refine hx.bind fun taken htext hline => ?_
    obtain rfl : line = _ := hline
    cases out with
    | some a => exact .pure a
    | none => exact .throwAt _ reason

/-- The text between two places is what was taken from the one to the other. -/
theorem ImplementsAt.taken (hx : x.ImplementsAt y front rest) : (Walk.spot >>= fun start =>
    x >>= fun _ => Walk.spot >>= fun stop =>
      substr start.offset (stop.offset - start.offset)).ImplementsAt (Scan.taken y) front rest := by
  rw [ImplementsAt] at hx
  refine .spot ?_
  change Goes _ front rest ((y.run ⟨rest, _⟩).map _)
  cases hrun : y.run ⟨rest, 1 + front.count '\n'⟩ with
  | error e =>
    rw [hrun] at hx
    exact hx.error
  | ok r =>
    rw [hrun] at hx
    obtain ⟨a, ⟨rest', line⟩⟩ := r
    refine hx.bind fun taken htext hline => .spot ?_
    obtain rfl : line = _ := hline
    obtain rfl : rest = taken ++ rest' := htext
    have hfound : (taken ++ rest').take ((taken ++ rest').length - rest'.length) = taken := by
      rw [List.length_append, Nat.add_sub_cancel, List.take_left]
    change Goes _ _ _ (.ok ((taken ++ rest').take ((taken ++ rest').length - rest'.length), _))
    rw [hfound]
    refine (Goes.pure taken).congr ?_
    simp [substr, Spot.behind, Pure.pure]

/-- Where a walk of either kind goes back to, and goes on from. -/
theorem run_back (text : List Char) (s s' : Spot) (z : Walk ε β) :
    (moveTo s >>= fun _ => z).run text s' =
      ⟨s :: (z.run text s).passed, (z.run text s).result⟩ := rfl

theorem Goes.back {z : Walk ε β} {run : Except (Failure ε) (β × Cursor)} {a : α} {c : Cursor}
    (h : x.Goes front rest (.ok (a, c))) (hf : f a = Walk.moveTo (Spot.behind front) >>= fun _ => z)
    (hz : z.Goes front rest run) : (x >>= f).Goes front rest run := by
  obtain ⟨hpassed, hresult⟩ := h
  have hbind := Walk.run_bind (x := x) (f := f) (front ++ rest) (.behind front)
  generalize x.run (front ++ rest) (.behind front) = out at hpassed hresult hbind
  obtain ⟨passed, result⟩ := out
  cases hresult
  simp only [Outcome.andThen, hf, run_back] at hbind
  constructor
  · rw [hbind]
    intro s hs
    rcases List.mem_append.mp hs with hs | hs
    · exact hpassed s hs
    rcases List.mem_cons.mp hs with rfl | hs
    · exact Spot.behind_sound front rest
    · exact hz.passed s hs
  · rw [hbind]
    exact hz.result

theorem Implements.probe (h : x.Implements y) : (Walk.probe x).Implements (Scan.ahead y) := by
  intro front rest
  have hx := h front rest
  rw [ImplementsAt] at hx
  refine .spot ?_
  change Goes _ front rest ((y.run ⟨rest, _⟩).map _)
  cases hrun : y.run ⟨rest, 1 + front.count '\n'⟩ with
  | error e =>
    rw [hrun] at hx
    exact hx.error
  | ok r =>
    rw [hrun] at hx
    exact hx.back rfl (.pure r.1)

/-- To go back only where nothing was found comes to the same as to look first. -/
theorem Implements.orBack {x : Walk ε Bool} {y : Scan ε Bool} {z z' : Walk ε β} {w w' : Scan ε β}
    (h : x.Implements y) (hz : z.Implements w) (hz' : z'.Implements w') :
    (Walk.spot >>= fun before => x >>= fun there =>
      if there then z else moveTo before >>= fun _ => z').Implements
        (Scan.ahead y >>= fun there => if there then y >>= fun _ => w else w') := by
  intro front rest
  have hx := h front rest
  rw [ImplementsAt] at hx
  refine .spot ?_
  change Goes _ front rest (((y.run _).map fun r => (r.1, ⟨rest, 1 + front.count '\n'⟩)) >>=
    fun r => (if r.1 then y >>= fun _ => w else w' : Scan ε β).run r.2)
  cases hrun : y.run ⟨rest, 1 + front.count '\n'⟩ with
  | error e =>
    rw [hrun] at hx
    exact hx.error
  | ok r =>
    rw [hrun] at hx
    obtain ⟨there, ⟨rest', line⟩⟩ := r
    cases there with
    | false => exact hx.back rfl (hz' front rest)
    | true =>
      have hagain : (y >>= fun _ => w).run ⟨rest, 1 + front.count '\n'⟩ = w.run ⟨rest', line⟩ := by
        change (y.run _ >>= fun r => w.run r.2) = _
        rw [hrun]
        rfl
      change Goes _ front rest ((y >>= fun _ => w).run _)
      rw [hagain]
      refine hx.bind fun taken _ hline => ?_
      obtain rfl : line = _ := hline
      exact hz (front ++ taken) rest'

end Implements

/-- A walk that is put together from walks that are known the way a scan is from scans. -/
inductive Composed (known : ∀ α : Type, Walk ε α → Scan ε α → Prop) :
    ∀ {α : Type}, Walk ε α → Scan ε α → Prop where
  | call {α : Type} {x : Walk ε α} {y : Scan ε α} (h : known α x y) : Composed known x y
  | pure {α : Type} (a : α) : Composed known (pure a) (pure a)
  | throw {α : Type} (reason : ε) :
    Composed known (throw reason : Walk ε α) (Scan.fail reason)
  | bind {α β : Type} {x : Walk ε α} {y : Scan ε α} {f : α → Walk ε β} {g : α → Scan ε β}
    (h : Composed known x y) (hf : ∀ a, Composed known (f a) (g a)) :
    Composed known (x >>= f) (y >>= g)
  | loop {σ α : Type} {body : σ → Walk ε (σ ⊕ α)} {body' : σ → Scan ε (σ ⊕ α)}
    (h : ∀ s, Composed known (body s) (body' s)) (s : σ) :
    Composed known (loop body s) (Scan.loop body' s)
  | probe {α : Type} {x : Walk ε α} {y : Scan ε α} (h : Composed known x y) :
    Composed known (probe x) (Scan.ahead y)

section Composed
variable {known : ∀ α : Type, Walk ε α → Scan ε α → Prop}

theorem Composed.implements
    (hknown : ∀ {α : Type} {x : Walk ε α} {y : Scan ε α}, known α x y → x.Implements y)
    {x : Walk ε α} {y : Scan ε α} (h : Composed known x y) : x.Implements y := by
  induction h with
  | call h => exact hknown h
  | pure a => exact .pure a
  | throw reason => exact .throw reason
  | bind _ _ ih ihf => exact ih.bind ihf
  | loop _ s ih => exact .loop ih s
  | probe _ ih => exact ih.probe

def Walkable (known : ∀ α : Type, Walk ε α → Scan ε α → Prop) (y : Scan ε α) : Prop :=
  ∃ x, Composed known x y

theorem Walkable.pure (a : α) : Walkable known (pure a) := ⟨_, .pure a⟩

theorem Walkable.fail (reason : ε) : Walkable known (Scan.fail reason : Scan ε α) :=
  ⟨_, .throw reason⟩

theorem Walkable.bind {y : Scan ε α} {g : α → Scan ε β} (h : Walkable known y)
    (hg : ∀ a, Walkable known (g a)) : Walkable known (y >>= g) := by
  obtain ⟨x, hx⟩ := h
  choose f hf using hg
  exact ⟨x >>= f, .bind hx hf⟩

theorem Walkable.ite {p : Prop} [Decidable p] {y y' : Scan ε α} (h : Walkable known y)
    (h' : Walkable known y') : Walkable known (if p then y else y') := by
  split_ifs
  · exact h
  · exact h'

theorem Walkable.loop {body : σ → Scan ε (σ ⊕ α)} (h : ∀ s, Walkable known (body s)) (s : σ) :
    Walkable known (Scan.loop body s) := by
  choose f hf using h
  exact ⟨Walk.loop f s, .loop hf s⟩

theorem Walkable.ahead {y : Scan ε α} (h : Walkable known y) :
    Walkable known (Scan.ahead y) := by
  obtain ⟨x, hx⟩ := h
  exact ⟨probe x, .probe hx⟩

end Composed

end Walk

end Uniorm.Foundation
