import Uniorm.Foundation.Transition
import Uniorm.Libpq.Connection

/-! # The flag and the server

`transaction_open_` against the server's block, over every run. Statements and the commands around
them stay inside the block they find. Only a `COMMIT` that is answered with an error brings the two
apart: the block is over, the flag stays up, and the next statement is sent without a `BEGIN`.
-/
namespace Uniorm.Libpq

open Foundation

universe u

variable {S : Type u}

namespace Server
variable (srv : Server S)

theorem isIdle_work (stmt : S) : (srv.work stmt).block.isIdle = srv.block.isIdle := by
  unfold work
  split <;> simp_all [Block.isIdle]

theorem isIdle_refuse : srv.refuse.block.isIdle = srv.block.isIdle := by
  unfold refuse
  split <;> simp_all [Block.isIdle]

theorem isIdle_exec (stmt : S) (reply : Reply) :
    (srv.exec stmt reply).1.block.isIdle = srv.block.isIdle := by
  unfold exec
  split
  · rfl
  · cases reply <;> simp [isIdle_work, isIdle_refuse]

theorem isIdle_utility (fails : Bool) : (srv.utility fails).1.block.isIdle = srv.block.isIdle := by
  unfold utility
  split
  · rfl
  · cases fails <;> simp [isIdle_refuse]

end Server

namespace Session

/-- What statements and the commands around them leave as it is. -/
structure Stays (s s' : Session S) : Prop where
  autocommit : s'.autocommit = s.autocommit
  transactionOpen : s'.transactionOpen = s.transactionOpen
  idle : s'.server.block.isIdle = s.server.block.isIdle
  since : s'.since = s.since
  loose : s.autocommit = true ∨ s.server.block.isIdle = false → s'.loose = s.loose

variable {s s' s'' : Session S}

theorem Stays.refl (s : Session S) : Stays s s := ⟨rfl, rfl, rfl, rfl, fun _ => rfl⟩

theorem Stays.trans (h : Stays s s') (h' : Stays s' s'') : Stays s s'' := by
  constructor
  · rw [h'.autocommit, h.autocommit]
  · rw [h'.transactionOpen, h.transactionOpen]
  · rw [h'.idle, h.idle]
  · rw [h'.since, h.since]
  · intro hs
    rw [h'.loose (by rwa [h.autocommit, h.idle]), h.loose hs]

theorem stays_utility (s : Session S) (fails : Bool) : Stays s (s.utility fails).1 :=
  ⟨rfl, rfl, s.server.isIdle_utility fails, rfl, fun _ => rfl⟩

theorem stays_send (s : Session S) (stmt : S) (reply : Reply) : Stays s (s.send stmt reply).1 := by
  refine ⟨rfl, rfl, s.server.isIdle_exec stmt reply, rfl, fun hs => ?_⟩
  rcases hs with hs | hs <;> simp [send, hs]

theorem stays_makeReady (s : Session S) (again : Bool) (r : Remake) :
    Stays s (s.makeReady again r).1 := by
  have hdropped : Stays s (s.dropParse again r.dropFails) := by
    cases again
    · exact .refl s
    · exact stays_utility s _
  have hmade := hdropped.trans (stays_utility _ r.prepareFails)
  unfold makeReady
  dsimp only
  split
  · exact hmade.trans (stays_utility _ r.describeFails)
  · exact hmade

theorem stays_runReady (s : Session S) (t : Turn S) : Stays s (s.runReady t).1 := by
  unfold runReady
  split
  · exact stays_send s _ _
  · rename_i remake hremake
    have hmade := (stays_utility s true).trans (stays_makeReady (s.utility true).1 true remake)
    dsimp only
    split
    · exact hmade.trans (stays_send _ _ _)
    · exact hmade

theorem stays_runTurns (s : Session S) (turns : List (Turn S)) : Stays s (s.runTurns turns).1 := by
  induction turns generalizing s with
  | nil => exact .refl s
  | cons t ts ih =>
    have hfirst := stays_runReady s t
    rw [runTurns]
    split
    · exact hfirst.trans (ih _)
    · exact hfirst

/-- The flag is up exactly inside a block, and no statement of the caller's has run outside one with
autocommit off. -/
@[mk_iff]
structure Mirrors (s : Session S) : Prop where
  flag : s.transactionOpen = true ↔ s.server.block.isIdle = false
  loose : s.loose = []

/-- The `COMMIT` a call sends, with the server's choice if it has one. -/
def sentCommit (s : Session S) : Call S → Option Bool
  | .commit fails => if s.transactionOpen then some fails else none
  | .scopeCommit _ fails => if s.transactionOpen then some fails else none
  | .setAutocommit enabled fails =>
    if enabled && !s.autocommit && s.transactionOpen then some fails else none
  | _ => none

/-- A `COMMIT` of an active block is answered with an error. -/
def CommitRefused (s : Session S) (c : Call S) : Prop :=
  s.sentCommit c = some true ∧ ∃ w, s.server.block = .active w

theorem Mirrors.of_stays (h : Mirrors s) (hs : Stays s s')
    (hin : s.autocommit = true ∨ s.server.block.isIdle = false) : Mirrors s' := by
  constructor
  · rw [hs.transactionOpen, hs.idle]
    exact h.flag
  · rw [hs.loose hin, h.loose]

/-- After `open_transaction` has returned, statements run in autocommit mode or inside a block. -/
theorem Mirrors.openTransaction (h : Mirrors s) (fails : Bool) :
    Mirrors (s.openTransaction fails).1 ∧ ((s.openTransaction fails).2 = true →
      (s.openTransaction fails).1.autocommit = true ∨
        (s.openTransaction fails).1.server.block.isIdle = false) := by
  unfold Session.openTransaction
  by_cases hopen : s.autocommit || s.transactionOpen
  · rw [if_pos hopen]
    exact ⟨h, fun _ => (Bool.or_eq_true _ _ ▸ hopen).imp_right h.flag.mp⟩
  · rw [if_neg hopen]
    have hidle : s.server.block = .idle := by
      have hdown : ¬ s.server.block.isIdle = false := fun hi => by simp [h.flag.mpr hi] at hopen
      cases hb : s.server.block <;> simp_all [Block.isIdle]
    cases fails
    · simp [Server.begin, hidle, commandOk, boundary, h.loose, Block.isIdle, mirrors_iff]
    · simpa [Server.begin, commandOk] using h

/-- The mode is not looked at. -/
theorem mirrors_autocommit (s : Session S) (enabled : Bool) :
    Mirrors { s with autocommit := enabled } ↔ Mirrors s := by
  rw [mirrors_iff, mirrors_iff]

/-- A `COMMIT` brings the flag and the server apart when it is refused, and only then. -/
theorem Mirrors.commit_iff (h : Mirrors s) (fails : Bool) :
    Mirrors (s.commit fails).1 ↔
      ¬ (s.transactionOpen = true ∧ fails = true ∧ ∃ w, s.server.block = .active w) := by
  unfold Session.commit
  by_cases hopen : s.transactionOpen = true
  · have hblock := h.flag.mp hopen
    rw [if_pos hopen]
    cases hb : s.server.block with
    | idle => simp [hb, Block.isIdle] at hblock
    | active w =>
      cases fails <;> simp [Server.commit, hb, mirrors_iff, boundary, commandOk, Block.isIdle,
        h.loose, hopen]
    | aborted w => simp [Server.commit, hb, mirrors_iff, boundary, commandOk, Block.isIdle, h.loose]
  · rw [if_neg hopen]
    simp [h, hopen]

theorem Mirrors.setAutocommit_iff (h : Mirrors s) (enabled fails : Bool) :
    Mirrors (s.setAutocommit enabled fails).1 ↔
      ¬ CommitRefused s (.setAutocommit enabled fails) := by
  unfold Session.setAutocommit CommitRefused sentCommit
  by_cases hends : enabled && !s.autocommit
  · have hcommit := h.commit_iff fails
    rw [if_pos hends]
    have hmode : Mirrors (if (s.commit fails).2 then
        ({ (s.commit fails).1 with autocommit := enabled }, true) else s.commit fails).1 ↔
        Mirrors (s.commit fails).1 := by
      split
      · exact mirrors_autocommit _ _
      · rfl
    rw [hmode, hcommit]
    by_cases hopen : s.transactionOpen = true <;> simp [hends, hopen]
  · rw [if_neg hends]
    simp [hends, mirrors_autocommit, h]

theorem Mirrors.rollback (h : Mirrors s) : Mirrors s.rollback.1 := by
  unfold Session.rollback
  by_cases hopen : s.transactionOpen = true
  · simp [hopen, Server.rollback, commandOk, boundary, mirrors_iff, h.loose, Block.isIdle]
  · by_cases hblock : s.server.block.isAborted = true
    · simp [hopen, hblock, Server.rollback, boundary, mirrors_iff, h.loose, Block.isIdle]
    · simpa [hopen, hblock] using h

theorem Mirrors.execute (h : Mirrors s) (beginFails : Bool) (turns : List (Turn S)) :
    Mirrors (s.execute beginFails turns).1 := by
  obtain ⟨hopened, hin⟩ := h.openTransaction beginFails
  unfold Session.execute
  by_cases hreturned : (s.openTransaction beginFails).2 = true
  · rw [if_pos hreturned]
    have hran := hopened.of_stays (stays_runTurns _ turns) (hin hreturned)
    dsimp only
    split
    · exact ⟨hran.flag, hran.loose⟩
    · exact hran
  · rw [if_neg hreturned]
    exact hopened

/-- The commands around a statement are nothing of the caller's. -/
theorem loose_makeReady (s : Session S) (again : Bool) (r : Remake) :
    (s.makeReady again r).1.loose = s.loose := by
  unfold makeReady
  cases again <;> dsimp only <;> split <;> rfl

theorem Mirrors.makeReady (h : Mirrors s) (again : Bool) (r : Remake) :
    Mirrors (s.makeReady again r).1 := by
  have hs := stays_makeReady s again r
  constructor
  · rw [hs.transactionOpen, hs.idle]
    exact h.flag
  · rw [loose_makeReady, h.loose]

/-- A commit that returns leaves the flag down. -/
theorem transactionOpen_of_commit {fails : Bool} (h : (s.commit fails).2 = true) :
    (s.commit fails).1.transactionOpen = false := by
  unfold Session.commit at h ⊢
  split
  · rename_i hopen
    rw [if_pos hopen] at h
    simpa [boundary] using h
  · rename_i hopen
    simpa using hopen

/-- With the flag down the mode is switched without a word to the server. -/
theorem setAutocommit_of_closed (h : s.transactionOpen = false) (enabled fails : Bool) :
    s.setAutocommit enabled fails = ({ s with autocommit := enabled }, true) := by
  unfold Session.setAutocommit Session.commit
  simp [h]

theorem scopeCommit_eq (s : Session S) (owns fails : Bool) :
    s.scopeCommit owns fails = s.commit fails ∨ (s.commit fails).2 = true ∧
      s.scopeCommit owns fails = ({ (s.commit fails).1 with autocommit := true }, true) := by
  unfold Session.scopeCommit
  by_cases hends : ((s.commit fails).2 && owns) = true
  · have hreturned := (Bool.and_eq_true_iff.mp hends).1
    right
    refine ⟨hreturned, ?_⟩
    rw [if_pos hends, setAutocommit_of_closed (transactionOpen_of_commit hreturned)]
  · left
    rw [if_neg hends]

theorem Mirrors.call_iff (h : Mirrors s) (c : Call S) :
    Mirrors (s.call c).1 ↔ ¬ CommitRefused s c := by
  have hsent : ∀ fails : Bool, (¬ (s.transactionOpen = true ∧ fails = true ∧
      ∃ w, s.server.block = .active w)) ↔ ¬ CommitRefused s (.commit fails) := by
    intro fails
    unfold CommitRefused sentCommit
    by_cases hopen : s.transactionOpen = true <;> simp [hopen]
  have hother : ∀ c : Call S, s.sentCommit c = none → ¬ CommitRefused s c := by
    intro c hc hrefused
    exact absurd (hc.symm.trans hrefused.1) nofun
  cases c with
  | setAutocommit enabled fails => exact h.setAutocommit_iff enabled fails
  | prepare again r => exact iff_of_true (h.makeReady again r) (hother _ rfl)
  | deallocate fails =>
    refine iff_of_true ⟨?_, h.loose⟩ (hother _ rfl)
    rw [Session.call, (stays_utility s fails).transactionOpen, (stays_utility s fails).idle]
    exact h.flag
  | execute beginFails turns => exact iff_of_true (h.execute beginFails turns) (hother _ rfl)
  | commit fails => exact (h.commit_iff fails).trans (hsent fails)
  | rollback => exact iff_of_true h.rollback (hother _ rfl)
  | scopeCommit owns fails =>
    have hcommit := (h.commit_iff fails).trans (hsent fails)
    rw [Session.call]
    rcases scopeCommit_eq s owns fails with heq | ⟨-, heq⟩
    · rw [heq]
      exact hcommit
    · rw [heq, mirrors_autocommit]
      exact hcommit

/-- After each call of a run the flag mirrors the server, and no statement has run outside a block
with autocommit off, exactly if no `COMMIT` of an active block is answered with an error. -/
theorem flag_mirrors_server_iff (calls : List (Call S)) :
    AfterEach (fun s c => (s.call c).1) Mirrors fresh calls ↔
      EachStep (fun s c => (s.call c).1) (fun s c => ¬ CommitRefused s c) fresh calls :=
  afterEach_iff (fun _ c h => h.call_iff c) ⟨by simp [fresh, Block.isIdle], rfl⟩ calls

/-- A deferred constraint refuses the `COMMIT`; the statement after it is durable at once, with
autocommit off. -/
theorem statement_outside_block_after_refused_commit :
    let calls : List (Call Bool) := [.setAutocommit false false,
      .execute false [⟨false, none, .command⟩], .commit true, .execute false [⟨true, none, .command⟩]]
    let s := calls.foldl (fun s c => (s.call c).1) fresh
    ¬ AfterEach (fun s c => (s.call c).1) Mirrors fresh calls ∧ s.autocommit = false ∧
      s.transactionOpen = true ∧ s.server = ⟨.idle, [true]⟩ ∧ s.loose = [true] := by
  refine ⟨fun h => ?_, rfl, rfl, rfl, rfl⟩
  obtain ⟨-, -, -, hrefused, -⟩ := h
  exact absurd (hrefused.flag.mp rfl) nofun

end Session

end Uniorm.Libpq
