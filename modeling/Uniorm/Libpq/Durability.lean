import Uniorm.Libpq.Mirror

/-! # A commit and its work

The statements that have returned since the last boundary of a transaction are in the server's
block, or durable where there is no block, whatever else fails. A `COMMIT` of an active block makes
them durable. One of an aborted block drops them and is answered like the other, but for the tag.
-/
namespace Uniorm.Libpq

open Foundation

universe u

variable {S : Type u}

/-- Statements that the server holds: in its block, or durable since the block began or the last
one ended. -/
def Server.Holds (srv : Server S) (base : ℕ) (stmts : List S) : Prop :=
  match srv.block with
  | .idle => base ≤ srv.durable.length ∧ stmts.Sublist (srv.durable.drop base)
  | .active w => base = srv.durable.length ∧ stmts.Sublist w
  | .aborted w => base = srv.durable.length ∧ stmts.Sublist w

namespace Server
variable {srv : Server S} {base : ℕ} {stmts : List S}

theorem Holds.refuse (h : srv.Holds base stmts) : srv.refuse.Holds base stmts := by
  unfold Server.refuse
  cases hb : srv.block <;> simp_all [Holds]

theorem Holds.work (h : srv.Holds base stmts) (stmt : S) : (srv.work stmt).Holds base stmts := by
  unfold Server.work
  cases hb : srv.block with
  | idle =>
    simp only [Holds, hb] at h ⊢
    obtain ⟨hbase, hsub⟩ := h
    rw [List.drop_append_of_le_length hbase, List.length_append]
    exact ⟨Nat.le_add_right_of_le hbase, hsub.trans (List.sublist_append_left _ _)⟩
  | active w =>
    simp only [Holds, hb] at h ⊢
    exact ⟨h.1, h.2.trans (List.sublist_append_left _ _)⟩
  | aborted w => exact h

theorem Holds.utility (h : srv.Holds base stmts) (fails : Bool) :
    (srv.utility fails).1.Holds base stmts := by
  unfold Server.utility
  split
  · exact h
  · cases fails
    · exact h
    · exact h.refuse

theorem Holds.exec (h : srv.Holds base stmts) (stmt : S) (reply : Reply) :
    (srv.exec stmt reply).1.Holds base stmts := by
  unfold Server.exec
  split
  · exact h
  · cases reply with
    | command => exact h.work stmt
    | tuples => exact h.work stmt
    | empty => exact h
    | refused => exact h.refuse

/-- A statement that is answered with success is held as well. -/
theorem Holds.exec_ok (h : srv.Holds base stmts) {stmt : S} {reply : Reply}
    (hok : statementOk (srv.exec stmt reply).2 = true) :
    (srv.exec stmt reply).1.Holds base (stmts ++ [stmt]) := by
  have hwork : srv.block.isAborted = false → (srv.work stmt).Holds base (stmts ++ [stmt]) := by
    intro haborted
    unfold Server.work
    cases hb : srv.block with
    | idle =>
      simp only [Holds, hb] at h ⊢
      rw [List.drop_append_of_le_length h.1, List.length_append]
      exact ⟨Nat.le_add_right_of_le h.1, h.2.append_right _⟩
    | active w =>
      simp only [Holds, hb] at h ⊢
      exact ⟨h.1, h.2.append_right _⟩
    | aborted w => simp [hb, Block.isAborted] at haborted
  unfold Server.exec at hok ⊢
  by_cases haborted : srv.block.isAborted = true
  · simp [haborted, statementOk] at hok
  · rw [if_neg haborted] at hok ⊢
    have hin := hwork (by simpa using haborted)
    cases reply with
    | command => exact hin
    | tuples => exact hin
    | empty => simp [statementOk] at hok
    | refused => simp [statementOk] at hok

end Server

namespace Session
variable {s : Session S} {stmts : List S}

def Holds (s : Session S) (stmts : List S) : Prop := s.server.Holds s.base stmts

theorem Holds.utility (h : s.Holds stmts) (fails : Bool) : (s.utility fails).1.Holds stmts :=
  Server.Holds.utility h fails

theorem Holds.makeReady (h : s.Holds stmts) (again : Bool) (r : Remake) :
    (s.makeReady again r).1.Holds stmts := by
  have hdropped : (s.dropParse again r.dropFails).Holds stmts := by
    cases again
    · exact h
    · exact h.utility r.dropFails
  have hmade := hdropped.utility r.prepareFails
  unfold Session.makeReady
  dsimp only
  split
  · exact hmade.utility r.describeFails
  · exact hmade

theorem Holds.runReady (h : s.Holds stmts) (t : Turn S) :
    (s.runReady t).1.Holds stmts ∧
      ((s.runReady t).2 = true → (s.runReady t).1.Holds (stmts ++ [t.stmt])) := by
  unfold Session.runReady
  split
  · exact ⟨h.exec t.stmt t.reply, h.exec_ok⟩
  · rename_i remake _
    have hmade : ((s.utility true).1.makeReady true remake).1.Holds stmts :=
      (h.utility true).makeReady true remake
    dsimp only
    split
    · exact ⟨hmade.exec t.stmt t.reply, hmade.exec_ok⟩
    · rename_i hno
      exact ⟨hmade, fun hyes => absurd hyes hno⟩

theorem Holds.runTurns (h : s.Holds stmts) (turns : List (Turn S)) :
    (s.runTurns turns).1.Holds stmts ∧ ((s.runTurns turns).2 = true →
      (s.runTurns turns).1.Holds (stmts ++ turns.map (·.stmt))) := by
  induction turns generalizing s stmts with
  | nil => simpa [Session.runTurns] using h
  | cons t ts ih =>
    obtain ⟨hfirst, hreturned⟩ := h.runReady t
    rw [Session.runTurns]
    by_cases hok : (s.runReady t).2 = true
    · have hrest := (ih (hreturned hok)).2
      rw [if_pos hok]
      refine ⟨(ih hfirst).1, fun hall => ?_⟩
      simpa using hrest hall
    · rw [if_neg hok]
      exact ⟨hfirst, fun hyes => absurd hyes hok⟩

/-- With the flag down there is no block, with the flag up autocommit is off, and what has returned
is held. -/
structure Kept (s : Session S) : Prop where
  closed : s.transactionOpen = false → s.server.block = .idle
  manual : s.transactionOpen = true → s.autocommit = false
  holds : s.Holds s.since

theorem kept_fresh : Kept (fresh : Session S) := ⟨fun _ => rfl, nofun, le_rfl, .slnil⟩

/-- Nothing is to be held at a boundary that ends a block. -/
theorem Kept.boundary (h : Kept s) {server : Server S} (hidle : server.block = .idle)
    (isOpen : Bool) (hopen : isOpen = true → s.transactionOpen = true) :
    Kept (s.boundary server isOpen) := by
  refine ⟨fun _ => hidle, fun ho => h.manual (hopen ho), ?_⟩
  have hholds : server.Holds server.durable.length [] := by simp [Server.Holds, hidle]
  exact hholds

theorem Kept.commit (h : Kept s) (fails : Bool) : Kept (s.commit fails).1 := by
  unfold Session.commit
  by_cases hopen : s.transactionOpen = true
  · rw [if_pos hopen]
    refine h.boundary ?_ _ fun _ => hopen
    unfold Server.commit
    cases hb : s.server.block with
    | idle => exact hb
    | active w => cases fails <;> rfl
    | aborted w => rfl
  · rw [if_neg hopen]
    exact h

theorem Kept.rollback (h : Kept s) : Kept s.rollback.1 := by
  unfold Session.rollback
  by_cases hopen : s.transactionOpen = true
  · rw [if_pos hopen]
    exact h.boundary rfl _ fun _ => hopen
  · rw [if_neg hopen]
    by_cases hblock : s.server.block.isAborted = true
    · rw [if_pos hblock]
      exact h.boundary rfl _ (by simp)
    · rw [if_neg hblock]
      exact h

/-- The mode may be set where the flag is down, and switched off anywhere. -/
theorem Kept.mode (h : Kept s) {enabled : Bool}
    (hmode : s.transactionOpen = true → enabled = false) :
    Kept { s with autocommit := enabled } := ⟨h.closed, hmode, h.holds⟩

theorem Kept.setAutocommit (h : Kept s) (enabled fails : Bool) :
    Kept (s.setAutocommit enabled fails).1 := by
  unfold Session.setAutocommit
  by_cases hends : (enabled && !s.autocommit) = true
  · rw [if_pos hends]
    dsimp only
    split
    · rename_i hreturned
      apply (h.commit fails).mode
      intro hopen
      exact absurd ((transactionOpen_of_commit hreturned).symm.trans hopen) nofun
    · exact h.commit fails
  · rw [if_neg hends]
    apply h.mode
    intro hopen
    simpa [h.manual hopen] using hends

theorem Kept.scopeCommit (h : Kept s) (owns fails : Bool) : Kept (s.scopeCommit owns fails).1 := by
  rcases scopeCommit_eq s owns fails with heq | ⟨hreturned, heq⟩
  · rw [heq]
    exact h.commit fails
  · rw [heq]
    apply (h.commit fails).mode
    intro hopen
    exact absurd ((transactionOpen_of_commit hreturned).symm.trans hopen) nofun

theorem Kept.openTransaction (h : Kept s) (fails : Bool) : Kept (s.openTransaction fails).1 := by
  unfold Session.openTransaction
  by_cases hopen : (s.autocommit || s.transactionOpen) = true
  · rw [if_pos hopen]
    exact h
  · rw [if_neg hopen]
    have hdown : s.autocommit = false ∧ s.transactionOpen = false := by simpa using hopen
    have hidle := h.closed hdown.2
    cases fails
    · simp only [Server.begin, hidle, commandOk]
      exact ⟨fun h => Bool.noConfusion h, fun _ => hdown.1, rfl, .slnil⟩
    · simpa [Server.begin, commandOk] using h

/-- Statements and the commands around them, given what they hold afterwards. -/
theorem Kept.of_stays {s' : Session S} (h : Kept s) (hs : Stays s s')
    (hholds : s'.Holds s'.since) : Kept s' := by
  refine ⟨fun hdown => ?_, fun hup => ?_, hholds⟩
  · rw [hs.transactionOpen] at hdown
    have hidle := hs.idle
    rw [h.closed hdown] at hidle
    cases hb : s'.server.block <;> simp_all [Block.isIdle]
  · rw [hs.autocommit]
    exact h.manual (hs.transactionOpen ▸ hup)

theorem Kept.execute (h : Kept s) (beginFails : Bool) (turns : List (Turn S)) :
    Kept (s.execute beginFails turns).1 := by
  have hopened := h.openTransaction beginFails
  have hstays := stays_runTurns (s.openTransaction beginFails).1 turns
  obtain ⟨hran, hall⟩ := hopened.holds.runTurns turns
  unfold Session.execute
  dsimp only
  split
  · split
    · rename_i hreturned
      have hkept := hopened.of_stays hstays (hstays.since ▸ hran)
      exact ⟨hkept.closed, hkept.manual, hstays.since ▸ hall hreturned⟩
    · exact hopened.of_stays hstays (hstays.since ▸ hran)
  · exact hopened

theorem Kept.call (h : Kept s) (c : Call S) : Kept (s.call c).1 := by
  cases c with
  | setAutocommit enabled fails => exact h.setAutocommit enabled fails
  | prepare again r =>
    have hstays := stays_makeReady s again r
    exact h.of_stays hstays (hstays.since ▸ h.holds.makeReady again r)
  | deallocate fails => exact h.of_stays (stays_utility s fails) (h.holds.utility fails)
  | execute beginFails turns => exact h.execute beginFails turns
  | commit fails => exact h.commit fails
  | rollback => exact h.rollback
  | scopeCommit owns fails => exact h.scopeCommit owns fails

def Commits : Call S → Prop
  | .commit _ => True
  | .scopeCommit _ _ => True
  | .setAutocommit enabled _ => enabled = true
  | _ => False

/-- If a call that commits returns, what has returned since the last boundary is durable. -/
def CommitsAll (s : Session S) (c : Call S) : Prop :=
  Commits c → (s.call c).2 = true → s.since.Sublist ((s.call c).1.server.durable.drop s.base)

/-- A `COMMIT` is sent to an aborted block in which some statement has returned. -/
def CommitsAborted (s : Session S) (c : Call S) : Prop :=
  s.sentCommit c ≠ none ∧ s.server.block.isAborted = true ∧ s.since ≠ []

theorem Kept.commit_iff (h : Kept s) (fails : Bool) :
    ((s.commit fails).2 = true → s.since.Sublist ((s.commit fails).1.server.durable.drop s.base)) ↔
      ¬ (s.transactionOpen = true ∧ s.server.block.isAborted = true ∧ s.since ≠ []) := by
  have hholds : s.server.Holds s.base s.since := h.holds
  unfold Session.commit
  by_cases hopen : s.transactionOpen = true
  · rw [if_pos hopen]
    cases hb : s.server.block with
    | idle =>
      simp only [Server.Holds, hb] at hholds
      simp [Server.commit, hb, Session.boundary, commandOk, Block.isAborted, hholds.2]
    | active w =>
      simp only [Server.Holds, hb] at hholds
      cases fails <;>
        simp [Server.commit, hb, Session.boundary, Block.isAborted, commandOk, hholds.1, hholds.2]
    | aborted w =>
      simp only [Server.Holds, hb] at hholds
      simp [Server.commit, hb, Session.boundary, Block.isAborted, commandOk, hholds.1, hopen]
  · rw [if_neg hopen]
    have hidle := h.closed (by simpa using hopen)
    simp only [Server.Holds, hidle] at hholds
    simp [hopen, hholds.2]

theorem Kept.commitsAll_iff (h : Kept s) (c : Call S) : CommitsAll s c ↔ ¬ CommitsAborted s c := by
  have hsent : ∀ fails : Bool, ¬ (s.transactionOpen = true ∧ s.server.block.isAborted = true ∧
      s.since ≠ []) ↔ ¬ CommitsAborted s (.commit fails) := by
    intro fails
    unfold CommitsAborted sentCommit
    by_cases hopen : s.transactionOpen = true <;> simp [hopen]
  have hother : ¬ Commits c → s.sentCommit c = none → (CommitsAll s c ↔ ¬ CommitsAborted s c) := by
    intro hno hnone
    exact iff_of_true (fun hc => absurd hc hno) fun hab => hab.1 hnone
  cases c with
  | commit fails =>
    rw [← hsent fails, ← h.commit_iff fails]
    exact ⟨fun hall => hall trivial, fun hall _ => hall⟩
  | scopeCommit owns fails =>
    have hiff := (h.commit_iff fails).trans (hsent fails)
    unfold CommitsAll
    rw [Session.call]
    rcases scopeCommit_eq s owns fails with heq | ⟨hreturned, heq⟩
    · rw [heq]
      exact ⟨fun hall => hiff.mp (hall trivial), fun hall _ => hiff.mpr hall⟩
    · rw [heq]
      exact ⟨fun hall => hiff.mp fun _ => hall trivial rfl, fun hall _ _ => hiff.mpr hall hreturned⟩
  | setAutocommit enabled fails =>
    cases enabled with
    | false => exact hother (fun h => Bool.noConfusion h) rfl
    | true =>
      unfold CommitsAll
      rw [Session.call, Session.setAutocommit]
      cases hauto : s.autocommit with
      | true =>
        -- the mode is on already: the flag is down, and what returned is durable
        have hdown : s.transactionOpen = false := by
          by_contra hopen
          cases hauto.symm.trans (h.manual (by simpa using hopen))
        have hiff := h.commit_iff false
        rw [Session.commit, if_neg (by simp [hdown])] at hiff
        simpa [hdown, Commits, CommitsAborted, sentCommit] using hiff
      | false =>
        have hiff := (h.commit_iff fails).trans (hsent fails)
        have hsame : CommitsAborted s (.setAutocommit true fails) ↔
            CommitsAborted s (.commit fails) := by simp [CommitsAborted, sentCommit, hauto]
        rw [hsame, ← hiff, if_pos (by rfl)]
        by_cases hreturned : (s.commit fails).2 = true
        · simp [hreturned, Commits]
        · simp [hreturned]
  | prepare again r => exact hother id rfl
  | deallocate fails => exact hother id rfl
  | execute beginFails turns => exact hother id rfl
  | rollback => exact hother id rfl

/-- Every commit of a run that returns has made durable what returned since the boundary before it,
exactly if no `COMMIT` of the run is sent to an aborted block in which some statement has returned. -/
theorem commit_returns_committed_iff (calls : List (Call S)) :
    EachStep (fun s c => (s.call c).1) CommitsAll fresh calls ↔
      EachStep (fun s c => (s.call c).1) (fun s c => ¬ CommitsAborted s c) fresh calls :=
  eachStep_congr (fun _ c h => h.call c) (fun _ c h => h.commitsAll_iff c) kept_fresh calls

/-- The second statement fails and its failure is caught; the commit returns, and the first
statement is gone. -/
theorem commit_returns_after_rollback :
    let calls : List (Call Bool) := [.setAutocommit false false,
      .execute false [⟨false, none, .command⟩], .execute false [⟨true, none, .refused⟩]]
    let s := calls.foldl (fun s c => (s.call c).1) fresh
    s.since = [false] ∧ (s.call (.commit false)).2 = true ∧
      (s.call (.commit false)).1.server.durable = [] ∧
      ¬ EachStep (fun s c => (s.call c).1) CommitsAll fresh (calls ++ [.commit false]) := by
  refine ⟨rfl, rfl, rfl, fun h => ?_⟩
  obtain ⟨-, -, -, hcommit, -⟩ := h
  exact absurd (hcommit trivial rfl) (by decide)

end Session

end Uniorm.Libpq
