import Mathlib.Logic.Equiv.Basic
import Uniorm.Connection.Session
import Uniorm.Foundation.Transition

/-! # Transaction objects and the commit mode

Any number of `transaction` objects over any number of connections, opened, ended, moved, assigned
and destroyed in any order. The object that switched autocommit off is the one to switch it back
on, wherever it has been moved to by then, and it does so when it ends, whatever else is open.
-/
namespace Uniorm.Connection

open Foundation

universe u v

variable {C : Type u} {X : Type v}

/-- A `transaction` object. `conn_` is null once it has been moved from. -/
structure Scope (C : Type u) where
  conn : Option C
  tx : Transaction

def Scope.moved : Scope C := ⟨none, ⟨false, false⟩⟩

/-- The connections and the objects alive. -/
structure Scopes (C : Type u) (X : Type v) where
  link : C → Link
  scope : X → Option (Scope C)

/-- What a caller does. `moveAssign x x` is the self-assignment the code guards against. -/
inductive Act (C : Type u) (X : Type v) where
  | begin (x : X) (c : C)
  | commit (x : X)
  | rollback (x : X)
  | moveConstruct (x y : X)
  | moveAssign (x y : X)
  | destroy (x : X)
  | execute (c : C) (w : Work)

namespace Scopes
variable [DecidableEq C] [DecidableEq X] (s : Scopes C X)

def setLink (c : C) (l : Link) : Scopes C X := { s with link := Function.update s.link c l }

def setScope (x : X) (o : Option (Scope C)) : Scopes C X :=
  { s with scope := Function.update s.scope x o }

/-- `connection::begin` into a new object. -/
def begin (x : X) (c : C) : Scopes C X :=
  let r := beginTransaction none (s.link c)
  (s.setLink c r.1).setScope x (r.2.map fun tx => ⟨some c, tx⟩)

/-- `transaction::commit` or `transaction::rollback`, given which. -/
def finish (x : X) (ending : Transaction → Link → Link × Transaction) : Scopes C X :=
  match s.scope x with
  | some ⟨some c, tx⟩ =>
    (s.setLink c (ending tx (s.link c)).1).setScope x (some ⟨some c, (ending tx (s.link c)).2⟩)
  | _ => s

def commit (x : X) : Scopes C X := s.finish x fun tx => tx.commit none none

def rollback (x : X) : Scopes C X := s.finish x fun tx => tx.rollback none none

/-- The three members are copied and the source is left moved from. -/
def transfer (x y : X) : Scopes C X := (s.setScope x (s.scope y)).setScope y (some .moved)

def moveAssign (x y : X) : Scopes C X := if x = y then s else (s.rollback x).transfer x y

def destroy (x : X) : Scopes C X := (s.rollback x).setScope x none

def execute (c : C) (w : Work) : Scopes C X := s.setLink c (Connection.execute w none (s.link c)).1

end Scopes

/-- One action, on objects that are alive and into names that are free. -/
inductive Scopes.Step [DecidableEq C] [DecidableEq X] :
    Scopes C X → Act C X → Scopes C X → Prop where
  | begin (s : Scopes C X) (x : X) (c : C) (free : s.scope x = none) :
      Step s (.begin x c) (s.begin x c)
  | commit (s : Scopes C X) (x : X) (alive : s.scope x ≠ none) : Step s (.commit x) (s.commit x)
  | rollback (s : Scopes C X) (x : X) (alive : s.scope x ≠ none) :
      Step s (.rollback x) (s.rollback x)
  | moveConstruct (s : Scopes C X) (x y : X) (free : s.scope x = none) (alive : s.scope y ≠ none) :
      Step s (.moveConstruct x y) (s.transfer x y)
  | moveAssign (s : Scopes C X) (x y : X) (target : s.scope x ≠ none) (alive : s.scope y ≠ none) :
      Step s (.moveAssign x y) (s.moveAssign x y)
  | destroy (s : Scopes C X) (x : X) (alive : s.scope x ≠ none) : Step s (.destroy x) (s.destroy x)
  | execute (s : Scopes C X) (c : C) (w : Work) : Step s (.execute c w) (s.execute c w)

/-- The runs over connections that are in given modes at first. -/
def Scopes.system [DecidableEq C] [DecidableEq X] (mode : C → Bool) :
    System (Scopes C X) (Act C X) where
  init s := (∀ c, Sound (s.link c).session ∧ (s.link c).session.autocommit = mode c) ∧
    ∀ x, s.scope x = none
  step := Scopes.Step

/-- The connection an active object is on, and whether it is to switch autocommit back on. -/
def Scope.held (o : Scope C) : Option (C × Bool) :=
  if o.tx.active then o.conn.map fun c => (c, o.tx.ownsMode) else none

/-- Of all objects. -/
def Scopes.held (s : Scopes C X) (x : X) : Option (C × Bool) := (s.scope x).bind Scope.held

def Scopes.auto (s : Scopes C X) (c : C) : Bool := (s.link c).session.autocommit

/-- An object that reports `active()` on a connection. -/
def Scopes.Active (s : Scopes C X) (x : X) (c : C) : Prop := ∃ owns, s.held x = some (c, owns)

/-- The commit modes against the active objects: the mode is the first one again when none is
active, and there is one object to restore it while some are. -/
structure Owned (mode auto : C → Bool) (held : X → Option (C × Bool)) : Prop where
  single : ∀ x y c, held x = some (c, true) → held y = some (c, true) → x = y
  manual : ∀ x c o, held x = some (c, o) → auto c = false
  owner : ∀ x c o, held x = some (c, o) → mode c = true → ∃ y, held y = some (c, true)
  restored : ∀ c, (∀ x o, held x ≠ some (c, o)) → auto c = mode c
  changed : ∀ x c, held x = some (c, true) → mode c = true

namespace Owned
variable {mode auto : C → Bool} {held : X → Option (C × Bool)}

/-- A new object restores the mode it found. -/
theorem opened [DecidableEq C] [DecidableEq X] (h : Owned mode auto held) {x : X} (c : C)
    (hx : held x = none) :
    Owned mode (Function.update auto c false) (Function.update held x (some (c, auto c))) := by
  -- a connection in autocommit is held by nobody
  have hfree : auto c = true → ∀ y o, held y ≠ some (c, o) := by
    intro hauto y o hy
    exact absurd (h.manual y c o hy) (by simp [hauto])
  have hne : ∀ {y : X} {p : C × Bool}, held y = some p → y ≠ x := by
    rintro y p hy rfl
    exact absurd (hx.symm.trans hy) nofun
  have hnew : ∀ {y : X} {d : C} {o : Bool},
      Function.update held x (some (c, auto c)) y = some (d, o) →
      (y = x ∧ d = c ∧ o = auto c) ∨ held y = some (d, o) := by
    intro y d o hy
    by_cases hyx : y = x
    · subst hyx
      rw [Function.update_self] at hy
      obtain ⟨rfl, rfl⟩ := Prod.mk.inj (Option.some.inj hy)
      exact .inl ⟨rfl, rfl, rfl⟩
    · rw [Function.update_of_ne hyx] at hy
      exact .inr hy
  constructor
  · intro y z d hy hz
    rcases hnew hy with ⟨hyx, rfl, ho⟩ | hyold
    · rcases hnew hz with ⟨hzx, -, -⟩ | hzold
      · rw [hyx, hzx]
      · exact absurd hzold (hfree ho.symm z true)
    · rcases hnew hz with ⟨-, rfl, ho⟩ | hzold
      · exact absurd hyold (hfree ho.symm y true)
      · exact h.single y z d hyold hzold
  · intro y d o hy
    by_cases hd : d = c
    · rw [hd, Function.update_self]
    · rw [Function.update_of_ne hd]
      rcases hnew hy with ⟨-, hdc, -⟩ | hyold
      · exact absurd hdc hd
      · exact h.manual y d o hyold
  · intro y d o hy hmode
    have hkeep : ∀ z, held z = some (d, true) →
        Function.update held x (some (c, auto c)) z = some (d, true) := by
      intro z hz
      rw [Function.update_of_ne (hne hz), hz]
    rcases hnew hy with ⟨rfl, rfl, -⟩ | hy
    · cases hauto : auto d with
      | true => exact ⟨y, by rw [Function.update_self]⟩
      | false =>
        by_cases hnone : ∀ z o, held z ≠ some (d, o)
        · exact absurd (h.restored d hnone) (by simp [hauto, hmode])
        · push Not at hnone
          obtain ⟨z, o, hz⟩ := hnone
          obtain ⟨w, hw⟩ := h.owner z d o hz hmode
          rw [hauto] at hkeep
          exact ⟨w, hkeep w hw⟩
    · obtain ⟨z, hz⟩ := h.owner y d o hy hmode
      exact ⟨z, hkeep z hz⟩
  · intro d hd
    by_cases hdc : d = c
    · subst hdc
      exact absurd (Function.update_self x _ held) (hd x _)
    · rw [Function.update_of_ne hdc]
      apply h.restored d
      intro y o hy
      apply hd y o
      rw [Function.update_of_ne (hne hy), hy]
  · intro y d hy
    rcases hnew hy with ⟨rfl, rfl, ho⟩ | hy
    · rw [← h.restored d (hfree ho.symm), ← ho]
    · exact h.changed y d hy

/-- An object that ends and restores the mode has to be the only one active. -/
theorem closed [DecidableEq C] [DecidableEq X] (h : Owned mode auto held) {x : X} {c : C} {o : Bool}
    (hx : held x = some (c, o)) (halone : o = true → ∀ y ≠ x, ∀ p, held y ≠ some (c, p)) :
    Owned mode (Function.update auto c (auto c || o)) (Function.update held x none) := by
  have hauto := h.manual x c o hx
  have hold : ∀ {y : X} {p : C × Bool}, Function.update held x none y = some p →
      y ≠ x ∧ held y = some p := by
    intro y p hy
    by_cases hyx : y = x
    · rw [hyx, Function.update_self] at hy
      exact absurd hy nofun
    · rw [Function.update_of_ne hyx] at hy
      exact ⟨hyx, hy⟩
  -- whoever is still active on the connection is there because the one that ends restores nothing
  have hfalse : ∀ {y : X} {p : Bool}, y ≠ x → held y = some (c, p) → o = false := by
    intro y p hyx hy
    by_contra ho
    exact halone (Bool.not_eq_false o ▸ ho) y hyx p hy
  constructor
  · intro y z d hy hz
    exact h.single y z d (hold hy).2 (hold hz).2
  · intro y d p hy
    obtain ⟨hyx, hyold⟩ := hold hy
    by_cases hd : d = c
    · subst hd
      rw [Function.update_self, hauto, hfalse hyx hyold]
      rfl
    · rw [Function.update_of_ne hd]
      exact h.manual y d p hyold
  · intro y d p hy hmode
    obtain ⟨hyx, hyold⟩ := hold hy
    obtain ⟨z, hz⟩ := h.owner y d p hyold hmode
    have hzx : z ≠ x := by
      intro hzx
      rw [hzx, hx] at hz
      obtain ⟨rfl, rfl⟩ := Prod.mk.inj (Option.some.inj hz)
      exact absurd (hfalse hyx hyold) nofun
    refine ⟨z, ?_⟩
    rw [Function.update_of_ne hzx, hz]
  · intro d hd
    have hothers : ∀ y ≠ x, ∀ p, held y ≠ some (d, p) := by
      intro y hyx p hy
      apply hd y p
      rw [Function.update_of_ne hyx, hy]
    by_cases hdc : d = c
    · subst hdc
      rw [Function.update_self, hauto, Bool.false_or]
      cases o with
      | true => exact (h.changed x d hx).symm
      | false =>
        by_contra hmode
        obtain ⟨y, hy⟩ := h.owner x d false hx (by simpa using Ne.symm hmode)
        by_cases hyx : y = x
        · rw [hyx, hx] at hy
          exact absurd hy (by simp)
        · exact hothers y hyx true hy
    · rw [Function.update_of_ne hdc]
      apply h.restored d
      intro y p hy
      by_cases hyx : y = x
      · rw [hyx, hx] at hy
        exact hdc (Prod.mk.inj (Option.some.inj hy)).1.symm
      · exact hothers y hyx p hy
  · intro y d hy
    exact h.changed y d (hold hy).2

/-- Which object holds what does not matter. -/
theorem renamed (h : Owned mode auto held) (σ : Equiv.Perm X) : Owned mode auto (held ∘ σ) := by
  constructor
  · intro x y c hx hy
    exact σ.injective (h.single (σ x) (σ y) c hx hy)
  · intro x c o hx
    exact h.manual (σ x) c o hx
  · intro x c o hx hmode
    obtain ⟨y, hy⟩ := h.owner (σ x) c o hx hmode
    refine ⟨σ.symm y, ?_⟩
    rw [Function.comp_apply, Equiv.apply_symm_apply, hy]
  · intro c hc
    apply h.restored c
    intro x o hx
    apply hc (σ.symm x) o
    rw [Function.comp_apply, Equiv.apply_symm_apply, hx]
  · intro x c hx
    exact h.changed (σ x) c hx

end Owned

/-- `transaction::commit` and `transaction::rollback` on a backend that does not fail. -/
structure Ending (ending : Transaction → Link → Link × Transaction) : Prop where
  ends : ∀ tx l, tx.active = true → (ending tx l).2 = { tx with active := false } ∧
    (ending tx l).1.session.autocommit = (l.session.autocommit || tx.ownsMode)
  ended : ∀ tx l, tx.active = false → ending tx l = (l, tx)
  sound : ∀ tx l, Sound l.session → Sound (ending tx l).1.session

theorem ending_commit : Ending fun tx => tx.commit none none := by
  constructor
  · rintro ⟨_, owns⟩ l rfl
    cases owns <;>
      simp [Transaction.commit, Transaction.finish, andThen, Connection.commit, serverCall, done,
        setAutocommit, backendSetAutocommit, Link.commitWork, Link.dropWork, Link.setPending]
  · rintro ⟨_, owns⟩ l rfl
    rfl
  · exact fun tx l h => tx.sound_finish (keeps_commit none) none h

theorem ending_rollback : Ending fun tx => tx.rollback none none := by
  constructor
  · rintro ⟨_, owns⟩ l rfl
    cases owns <;>
      simp [Transaction.rollback, Transaction.finish, andThen, Connection.rollback, serverCall,
        done, setAutocommit, backendSetAutocommit, Link.dropWork, Link.setPending]
  · rintro ⟨_, owns⟩ l rfl
    rfl
  · exact fun tx l h => tx.sound_finish (keeps_rollback none) none h

namespace Scopes
variable [DecidableEq C] [DecidableEq X] {s : Scopes C X}

omit [DecidableEq C] in
theorem held_setScope (x : X) (o : Option (Scope C)) :
    (s.setScope x o).held = Function.update s.held x (o.bind Scope.held) := by
  ext y : 1
  by_cases hy : y = x
  · subst hy
    simp [held, setScope]
  · simp [held, setScope, hy]

omit [DecidableEq X] in
theorem auto_setLink (c : C) (l : Link) :
    (s.setLink c l).auto = Function.update s.auto c l.session.autocommit := by
  ext d : 1
  by_cases hd : d = c
  · subst hd
    simp [auto, setLink]
  · simp [auto, setLink, hd]

theorem begin_eq (x : X) (c : C) :
    (s.begin x c).auto = Function.update s.auto c false ∧
      (s.begin x c).held = Function.update s.held x (some (c, s.auto c)) := by
  have hbegin : (beginTransaction none (s.link c)).1.session.autocommit = false ∧
      (beginTransaction none (s.link c)).2 = some ⟨true, s.auto c⟩ := by
    cases hauto : (s.link c).session.autocommit <;>
      simp [beginTransaction, hauto, auto, done, setAutocommit, backendSetAutocommit, Link.setMode]
  constructor
  · rw [← hbegin.1]
    exact auto_setLink c _
  · rw [Scopes.begin, hbegin.2, held_setScope]
    rfl

variable {ending : Transaction → Link → Link × Transaction}

/-- An active object ends, and restores the mode if it is to. -/
theorem finish_eq (he : Ending ending) {x : X} {c : C} {o : Bool} (hx : s.held x = some (c, o)) :
    (s.finish x ending).auto = Function.update s.auto c (s.auto c || o) ∧
      (s.finish x ending).held = Function.update s.held x none := by
  obtain ⟨⟨conn, tx⟩, hscope, hheld⟩ := Option.bind_eq_some_iff.mp hx
  have hactive : tx.active = true := by
    by_contra hno
    simp [Scope.held, hno] at hheld
  obtain ⟨rfl, rfl⟩ : conn = some c ∧ tx.ownsMode = o := by
    simpa [Scope.held, hactive] using hheld
  obtain ⟨htx, hauto⟩ := he.ends tx (s.link c) hactive
  have hfinish : s.finish x ending = (s.setLink c (ending tx (s.link c)).1).setScope x
      (some ⟨some c, { tx with active := false }⟩) := by
    rw [finish, hscope, ← htx]
  rw [hfinish, held_setScope]
  refine ⟨?_, rfl⟩
  rw [auto, ← hauto]
  exact auto_setLink c _

/-- An object that is not active does nothing. -/
theorem finish_of_not_held (he : Ending ending) {x : X} (hx : s.held x = none) :
    s.finish x ending = s := by
  rw [finish]
  split
  · rename_i c tx hscope
    have hactive : tx.active = false := by
      simpa [held, hscope, Scope.held] using hx
    rw [he.ended tx (s.link c) hactive, ← hscope]
    simp [setLink, setScope]
  · rfl

theorem sound_finish (he : Ending ending) (x : X) (h : ∀ c, Sound (s.link c).session) (c : C) :
    Sound ((s.finish x ending).link c).session := by
  rw [finish]
  split
  · rename_i d tx hscope
    by_cases hc : c = d
    · subst hc
      simpa [setLink, setScope] using he.sound tx (s.link c) (h c)
    · simpa [setLink, setScope, hc] using h c
  · exact h c

theorem held_finish_self (he : Ending ending) (x : X) : (s.finish x ending).held x = none := by
  cases hx : s.held x with
  | none => rw [finish_of_not_held he hx, hx]
  | some p => rw [(finish_eq he hx).2, Function.update_self]

omit [DecidableEq C] in
/-- A move into an object that is not active swaps the two. -/
theorem held_transfer {x y : X} (hne : x ≠ y) (hx : s.held x = none) :
    (s.transfer x y).held = s.held ∘ Equiv.swap x y := by
  rw [transfer, held_setScope, held_setScope]
  ext z : 1
  by_cases hzy : z = y
  · subst hzy
    rw [Function.update_self, Function.comp_apply, Equiv.swap_apply_right, hx]
    rfl
  · rw [Function.update_of_ne hzy]
    by_cases hzx : z = x
    · subst hzx
      rw [Function.update_self, Function.comp_apply, Equiv.swap_apply_left]
      rfl
    · rw [Function.update_of_ne hzx, Function.comp_apply, Equiv.swap_apply_of_ne_of_ne hzx hzy]

end Scopes

section
variable [DecidableEq C] [DecidableEq X] {s s' : Scopes C X} {a : Act C X} {mode : C → Bool}

def Act.ends : Act C X → Option X
  | commit x | rollback x | destroy x => some x
  | moveAssign x y => if x = y then none else some x
  | _ => none

/-- An active object that is to restore the mode ends only while no other one is active on its
connection. -/
def EndsAlone (s : Scopes C X) (a : Act C X) : Prop :=
  ∀ x c, a.ends = some x → s.held x = some (c, true) → ∀ y ≠ x, ¬ s.Active y c

/-- The commit mode of every connection, for the caller and for the backend: out of autocommit
while an object is active, so that a statement is not durable by itself and `rollback` undoes it,
and otherwise as at first. -/
structure KeepsMode (mode : C → Bool) (s : Scopes C X) : Prop where
  manual : ∀ x c, s.Active x c →
    (s.link c).session.autocommit = false ∧ (s.link c).session.mode = false ∧
    ∀ w, (execute w none (s.link c)).1.durable = (s.link c).durable ∧
      (rollback none (execute w none (s.link c)).1).1 = (rollback none (s.link c)).1
  restored : ∀ c, (∀ x, ¬ s.Active x c) →
    (s.link c).session.autocommit = mode c ∧ (s.link c).session.mode = mode c

/-- The invariant of runs that end such objects alone. -/
structure Scoped (mode : C → Bool) (s : Scopes C X) : Prop where
  sound : ∀ c, Sound (s.link c).session
  owned : Owned mode s.auto s.held

omit [DecidableEq C] [DecidableEq X] in
theorem Scoped.keepsMode (h : Scoped mode s) : KeepsMode mode s := by
  constructor
  · rintro x c ⟨o, hx⟩
    have hauto : (s.link c).session.autocommit = false := h.owned.manual x c o hx
    have hmode : (s.link c).session.mode = false := by rw [← (h.sound c).agree, hauto]
    refine ⟨hauto, hmode, fun w => ?_⟩
    simp [execute, rollback, serverCall, Link.runStatement, hmode, Link.setPending, Link.dropWork]
  · intro c hc
    have hauto : (s.link c).session.autocommit = mode c :=
      h.owned.restored c fun x o hx => hc x ⟨o, hx⟩
    refine ⟨hauto, ?_⟩
    rw [← (h.sound c).agree, hauto]

theorem Scoped.finish {ending : Transaction → Link → Link × Transaction} (h : Scoped mode s)
    (he : Ending ending) {x : X}
    (halone : ∀ c, s.held x = some (c, true) → ∀ y ≠ x, ¬ s.Active y c) :
    Scoped mode (s.finish x ending) := by
  refine ⟨Scopes.sound_finish he x h.sound, ?_⟩
  cases hx : s.held x with
  | none =>
    rw [Scopes.finish_of_not_held he hx]
    exact h.owned
  | some p =>
    obtain ⟨c, o⟩ := p
    rw [(Scopes.finish_eq he hx).1, (Scopes.finish_eq he hx).2]
    apply h.owned.closed hx
    rintro rfl y hy o hyc
    exact halone c hx y hy ⟨o, hyc⟩

omit [DecidableEq C] in
theorem Scoped.transfer (h : Scoped mode s) {x y : X} (hne : x ≠ y) (hx : s.held x = none) :
    Scoped mode (s.transfer x y) := by
  refine ⟨h.sound, ?_⟩
  rw [Scopes.held_transfer hne hx]
  exact h.owned.renamed (Equiv.swap x y)

theorem Scoped.step (h : Scoped mode s) (hok : EndsAlone s a)
    (hs : (Scopes.system mode).step s a s') : Scoped mode s' := by
  cases hs with
  | begin x c free =>
    have hx : s.held x = none := by rw [Scopes.held, free, Option.bind_none]
    constructor
    · intro d
      by_cases hd : d = c
      · subst hd
        simpa [Scopes.begin, Scopes.setLink, Scopes.setScope] using
          sound_beginTransaction none (h.sound d)
      · simpa [Scopes.begin, Scopes.setLink, Scopes.setScope, hd] using h.sound d
    · rw [(Scopes.begin_eq x c).1, (Scopes.begin_eq x c).2]
      exact h.owned.opened c hx
  | commit x alive => exact h.finish ending_commit fun c hx => hok x c rfl hx
  | rollback x alive => exact h.finish ending_rollback fun c hx => hok x c rfl hx
  | moveConstruct x y free alive =>
    have hne : x ≠ y := by
      rintro rfl
      exact alive free
    apply h.transfer hne
    rw [Scopes.held, free, Option.bind_none]
  | moveAssign x y target alive =>
    unfold Scopes.moveAssign
    split
    · exact h
    · rename_i hne
      have hends : (Act.moveAssign x y : Act C X).ends = some x := if_neg hne
      have hclosed := h.finish ending_rollback fun c hx => hok x c hends hx
      exact hclosed.transfer hne (Scopes.held_finish_self ending_rollback x)
  | destroy x alive =>
    have hclosed := h.finish ending_rollback fun c hx => hok x c rfl hx
    refine ⟨hclosed.sound, ?_⟩
    have hheld : (s.destroy x).held = (s.rollback x).held := by
      have hnone := Scopes.held_finish_self (s := s) ending_rollback x
      rw [Scopes.destroy, Scopes.held_setScope]
      exact Function.update_eq_self_iff.mpr hnone.symm
    rw [hheld]
    exact hclosed.owned
  | execute c w =>
    have hsession : (Connection.execute w none (s.link c)).1.session.autocommit =
        (s.link c).session.autocommit := by
      simp only [Connection.execute, serverCall, Link.runStatement]
      split <;> rfl
    constructor
    · intro d
      by_cases hd : d = c
      · subst hd
        simpa [Scopes.execute, Scopes.setLink] using keeps_execute w none (s.link d) (h.sound d)
      · simpa [Scopes.execute, Scopes.setLink, hd] using h.sound d
    · have hauto : (s.execute c w).auto = s.auto := by
        rw [Scopes.execute, Scopes.auto_setLink, hsession]
        exact Function.update_eq_self c s.auto
      rw [hauto]
      exact h.owned

theorem scoped_of_reach (mode : C → Bool) (h : (Scopes.system mode).Reach EndsAlone s) : Scoped mode s := by
  apply h.invariant
  · rintro s ⟨hlink, hnone⟩
    have hheld : ∀ x, s.held x = none := fun x => by rw [Scopes.held, hnone x, Option.bind_none]
    refine ⟨fun c => (hlink c).1, ?_, ?_, ?_, fun c _ => (hlink c).2, ?_⟩ <;> simp [hheld]
  · exact fun _ _ _ _ hi hok hs => hi.step hok hs

/-- An object that restores the mode beside another one leaves that one in autocommit. -/
theorem Scopes.finish_beside {ending : Transaction → Link → Link × Transaction} (he : Ending ending)
    {x y : X} {c : C} (hx : s.held x = some (c, true)) (hyx : y ≠ x) (hy : s.Active y c) :
    (s.finish x ending).Active y c ∧ (s.finish x ending).auto c = true := by
  obtain ⟨o, ho⟩ := hy
  constructor
  · refine ⟨o, ?_⟩
    rw [(finish_eq he hx).2, Function.update_of_ne hyx, ho]
  · rw [(finish_eq he hx).1, Function.update_self, Bool.or_true]

theorem endsAlone_of_keepsMode (hs : (Scopes.system mode).step s a s') (h : KeepsMode mode s') :
    EndsAlone s a := by
  intro x c hends hx y hyx hy
  have hmanual : ∀ z, s'.Active z c → s'.auto c = false := fun z hz => (h.manual z c hz).1
  cases hs with
  | commit z alive =>
    obtain rfl := Option.some.inj hends
    obtain ⟨hactive, hauto⟩ := Scopes.finish_beside ending_commit hx hyx hy
    exact absurd (hauto.symm.trans (hmanual y hactive)) nofun
  | rollback z alive =>
    obtain rfl := Option.some.inj hends
    obtain ⟨hactive, hauto⟩ := Scopes.finish_beside ending_rollback hx hyx hy
    exact absurd (hauto.symm.trans (hmanual y hactive)) nofun
  | destroy z alive =>
    obtain rfl := Option.some.inj hends
    obtain ⟨⟨o, ho⟩, hauto⟩ := Scopes.finish_beside ending_rollback hx hyx hy
    have hactive : (s.destroy z).Active y c := by
      refine ⟨o, ?_⟩
      rw [Scopes.destroy, Scopes.held_setScope, Function.update_of_ne hyx]
      exact ho
    exact absurd (hauto.symm.trans (hmanual y hactive)) nofun
  | moveAssign z w target alive =>
    unfold Scopes.moveAssign at hmanual
    by_cases hzw : z = w
    · rw [Act.ends, if_pos hzw] at hends
      exact absurd hends nofun
    · rw [Act.ends, if_neg hzw] at hends
      obtain rfl := Option.some.inj hends
      obtain ⟨⟨o, ho⟩, hauto⟩ := Scopes.finish_beside ending_rollback hx hyx hy
      rw [if_neg hzw] at hmanual
      have hactive : ((s.rollback z).transfer z w).Active (Equiv.swap z w y) c := by
        refine ⟨o, ?_⟩
        have hself : (s.rollback z).held z = none := Scopes.held_finish_self ending_rollback z
        rw [Scopes.held_transfer hzw hself, Function.comp_apply, Equiv.swap_apply_self]
        exact ho
      exact absurd (hauto.symm.trans (hmanual _ hactive)) nofun
  | _ => exact absurd hends nofun

/-- In a run that ends the objects that restore a mode only alone, every connection is out of
autocommit while an object is active on it and otherwise in its first mode; and the next action
leaves it so exactly when it meets that condition too. -/
theorem scopes_keep_the_mode (mode : C → Bool) (h : (Scopes.system mode).Reach EndsAlone s) :
    KeepsMode mode s ∧
      ∀ a s', (Scopes.system mode).step s a s' → (KeepsMode mode s' ↔ EndsAlone s a) := by
  have hscoped := scoped_of_reach mode h
  refine ⟨hscoped.keepsMode, fun a s' hs => ⟨endsAlone_of_keepsMode hs, fun hok => ?_⟩⟩
  exact (hscoped.step hok hs).keepsMode

end

/-- A connection in autocommit with no objects yet. -/
def quietScopes : Scopes Unit Bool := ⟨fun _ => ⟨clean, []⟩, fun _ => none⟩

theorem quietScopes_init : (Scopes.system fun _ => true).init quietScopes :=
  ⟨fun _ => ⟨sound_clean, rfl⟩, fun _ => rfl⟩

/-- One scope, from `begin` to `commit`. -/
theorem mode_restored_after_commit :
    ∃ s : Scopes Unit Bool, (Scopes.system fun _ => true).Reach EndsAlone s ∧
      s.held false = none ∧ KeepsMode (fun _ => true) s ∧ (s.link ()).session.autocommit = true := by
  have h0 : (Scopes.system fun _ => true).Reach EndsAlone quietScopes := .start quietScopes_init
  have h1 := h0.andThen (.begin _ false () rfl) nofun
  have halone : EndsAlone (quietScopes.begin false ()) (.commit false) := by
    intro x c hends _ y hy ⟨o, ho⟩
    obtain rfl := Option.some.inj hends
    cases y with
    | false => exact hy rfl
    | true => exact absurd ho nofun
  have h2 := h1.andThen (.commit _ false nofun) halone
  exact ⟨_, h2, rfl, (scopes_keep_the_mode _ h2).1, rfl⟩

/-- `t = conn.begin()` over an active `t`: the new scope finds the mode already switched off, the
old one switches it back on. -/
theorem assigned_scope_in_autocommit :
    ∃ s : Scopes Unit Bool, (Scopes.system fun _ => true).Reachable s ∧ s.Active false () ∧
      (s.link ()).session.autocommit = true ∧ ¬ KeepsMode (fun _ => true) s := by
  have h0 : (Scopes.system fun _ => true).Reachable quietScopes := .start quietScopes_init
  have h1 := h0.andThen (.begin _ false () rfl) trivial
  have h2 := h1.andThen (.begin _ true () rfl) trivial
  have h3 := h2.andThen (.moveAssign _ false true nofun nofun) trivial
  refine ⟨_, h3, ⟨false, rfl⟩, rfl, fun hk => ?_⟩
  exact absurd (hk.manual false () ⟨false, rfl⟩).1 nofun

end Uniorm.Connection
