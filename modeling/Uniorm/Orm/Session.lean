import Uniorm.Connection.Session
import Uniorm.Connection.Target
import Uniorm.Orm.Registry

/-! # The session calls of an orm

`connect` and `disconnect` clear the resolved names before anything else. A new lease replaces the
old one before it is adopted. The commit mode and the spelling policy are stored when the connection
has taken them.
-/
namespace Uniorm.Orm
open Foundation Builder

/-- A leased connection: which one it is, whether it is open, its commit mode with the work of its
server, and its `identifiers_`. -/
structure Lease where
  conn : ℕ
  isOpen : Bool
  link : Connection.Link
  identifiers : Option IdentifierCase

structure SessionState (R V ι K : Type) where
  pooledConn : Option Lease
  autoCommit : Bool
  identifiers : Option IdentifierCase
  entities : Entities R V ι K

inductive SessionError (E : Type) where
  | notConnected
  | pool (error : E)
  | backend

/-- What the calls meet: the answers of the pool registry, and how the backend fails at a rollback
and at a change of the commit mode. -/
structure Surroundings (E : Type) where
  acquire : Connection.Target → Except E Lease
  rollback : Option Connection.Fault
  setAutocommit : Option Connection.Fault

inductive SessionCall where
  | connectString (connectionString : Connection.Text)
  | connectSpec (spec : Connection.ConnectionSpec)
  | disconnect
  | autoCommit (enabled : Bool)
  | identifierCase (policy : Option IdentifierCase)

section
variable {R V ι K E : Type}

def SessionState.openLease (s : SessionState R V ι K) : Option Lease :=
  s.pooledConn.filter Lease.isOpen

def SessionState.setLease (lease : Lease) (s : SessionState R V ι K) : SessionState R V ι K :=
  { s with pooledConn := some lease }

def clearIdentifierResolution : Action (SessionState R V ι K) (SessionError E) Unit :=
  Action.update (fun s => { s with entities := s.entities.clear }) ()

def ensureConnected : Action (SessionState R V ι K) (SessionError E) Lease := fun s =>
  match s.openLease with
  | some lease => (.ok lease, s)
  | none => (.error .notConnected, s)

/-- `adopt_connection` on the connection of the session. -/
def adoptConnection (env : Surroundings E) :
    Action (SessionState R V ι K) (SessionError E) Unit := do
  let lease ← ensureConnected
  fun s =>
    match Connection.adoptConnection s.autoCommit env.rollback env.setAutocommit lease.link with
    | (link, true) => (.ok (), s.setLease { lease with link, identifiers := s.identifiers })
    | (link, false) => (.error .backend, s.setLease { lease with link })

/-- The common body of the two `connect`s. The lease that is replaced goes back to its pool. -/
def connect (env : Surroundings E) (target : Connection.Target) :
    Action (SessionState R V ι K) (SessionError E) Unit := do
  clearIdentifierResolution
  let lease ← Action.lift ((env.acquire target).mapError .pool)
  Action.update (SessionState.setLease lease) ()
  adoptConnection env

def disconnect : Action (SessionState R V ι K) (SessionError E) Unit := do
  clearIdentifierResolution
  let _ ← ensureConnected
  Action.update (fun s => { s with pooledConn := none }) ()

def autoCommit (env : Surroundings E) (enabled : Bool) :
    Action (SessionState R V ι K) (SessionError E) Unit := fun s =>
  match s.openLease with
  | some lease =>
    match Connection.setAutocommit enabled env.setAutocommit lease.link with
    | (link, true) => (.ok (), { s.setLease { lease with link } with autoCommit := enabled })
    | (link, false) => (.error .backend, s.setLease { lease with link })
  | none => (.ok (), { s with autoCommit := enabled })

def identifierCase (policy : Option IdentifierCase) :
    Action (SessionState R V ι K) (SessionError E) Unit := fun s =>
  match s.openLease with
  | some lease =>
    (.ok (), { s.setLease { lease with identifiers := policy } with identifiers := policy })
  | none => (.ok (), { s with identifiers := policy })

def SessionCall.run (env : Surroundings E) :
    SessionCall → Action (SessionState R V ι K) (SessionError E) Unit
  | connectString connectionString => connect env (.string connectionString)
  | connectSpec spec => connect env (.spec spec)
  | disconnect => Orm.disconnect
  | autoCommit enabled => Orm.autoCommit env enabled
  | identifierCase policy => Orm.identifierCase policy

/-- The target of a `connect`. -/
def SessionCall.target : SessionCall → Option Connection.Target
  | connectString connectionString => some (.string connectionString)
  | connectSpec spec => some (.spec spec)
  | _ => none

def SessionCall.clears : SessionCall → Bool
  | autoCommit _ => false
  | identifierCase _ => false
  | _ => true

def SessionState.leased (s : SessionState R V ι K) : Option ℕ := s.pooledConn.map Lease.conn

/-- The settings are as they were. The resolved names are cleared by the calls that do so at once,
and kept by the others. The lease is kept unless the pool has given a new one. -/
structure LeftBy (env : Surroundings E) (call : SessionCall) (s s' : SessionState R V ι K) :
    Prop where
  autoCommit : s'.autoCommit = s.autoCommit
  identifiers : s'.identifiers = s.identifiers
  entities : s'.entities = if call.clears then s.entities.clear else s.entities
  lease : (∀ target ∈ call.target, ∃ e, env.acquire target = .error e) → s'.leased = s.leased

theorem openLease_leased {s : SessionState R V ι K} {lease : Lease} (h : s.openLease = some lease) :
    s.leased = some lease.conn := by
  rw [SessionState.openLease, Option.filter_eq_some_iff] at h
  rw [SessionState.leased, h.1]
  rfl

/-- Nothing but the state of the lease differs. -/
structure Framed (s s' : SessionState R V ι K) : Prop where
  autoCommit : s'.autoCommit = s.autoCommit
  identifiers : s'.identifiers = s.identifiers
  entities : s'.entities = s.entities

theorem ensureConnected_keeps (s : SessionState R V ι K) :
    Action.Triple (fun s' => s' = s) (ensureConnected (E := E)) (fun _ s' => s' = s)
      fun _ s' => s' = s := by
  rintro s' rfl
  rw [ensureConnected]
  cases s'.openLease with
  | some lease => exact ⟨fun _ _ => rfl, fun _ _ => rfl⟩
  | none => exact ⟨fun _ _ => rfl, fun _ _ => rfl⟩

theorem adoptConnection_frame (env : Surroundings E) (s : SessionState R V ι K) :
    Action.Triple (fun s' => s' = s) (adoptConnection env) (fun _ _ => True)
      fun _ s' => Framed s s' := by
  refine ((ensureConnected_keeps s).mono (fun _ h => h) (fun _ _ h => h) ?_).bind ?_
  · rintro e s' rfl
    exact ⟨rfl, rfl, rfl⟩
  · rintro lease s' rfl
    refine ⟨fun _ _ => trivial, fun e _ => ?_⟩
    dsimp only
    split
    · exact ⟨rfl, rfl, rfl⟩
    · exact ⟨rfl, rfl, rfl⟩

theorem clear_triple (s : SessionState R V ι K)
    {E' : SessionError E → SessionState R V ι K → Prop} :
    Action.Triple (fun s' => s' = s) clearIdentifierResolution
      (fun _ s' => s' = { s with entities := s.entities.clear }) E' := by
  apply Action.Triple.update
  rintro s' rfl
  rfl

theorem connect_throws (env : Surroundings E) (target : Connection.Target)
    (s : SessionState R V ι K) :
    Action.Triple (fun s' => s' = s) (connect env target) (fun _ _ => True) fun _ s' =>
      Framed { s with entities := s.entities.clear } s' ∧
        ((∃ e, env.acquire target = .error e) → s'.leased = s.leased) := by
  apply (clear_triple s).bind
  intro _
  apply Action.Triple.bind (Q := fun _ s' =>
    s' = { s with entities := s.entities.clear } ∧ ∃ lease, env.acquire target = .ok lease)
  · apply Action.Triple.lift
    · rintro s' lease rfl hlease
      exact ⟨rfl, lease, mapError_eq_ok.mp hlease⟩
    · rintro s' e rfl _
      exact ⟨⟨rfl, rfl, rfl⟩, fun _ => rfl⟩
  · intro lease
    apply Action.Triple.bind (Q := fun _ s' =>
      s' = { s with entities := s.entities.clear, pooledConn := some lease } ∧
        ∃ lease, env.acquire target = .ok lease)
    · apply Action.Triple.update
      rintro s' ⟨rfl, hlease⟩
      exact ⟨rfl, hlease⟩
    · rintro _ s' ⟨rfl, hlease⟩
      obtain ⟨hok, herror⟩ := adoptConnection_frame env
        ({ s with entities := s.entities.clear, pooledConn := some lease }) _ rfl
      refine ⟨hok, fun e he => ?_⟩
      obtain ⟨h₁, h₂, h₃⟩ := herror e he
      refine ⟨⟨h₁, h₂, h₃⟩, fun hfails => ?_⟩
      obtain ⟨lease', hlease⟩ := hlease
      obtain ⟨e', he'⟩ := hfails
      cases hlease.symm.trans he'

theorem disconnect_throws (s : SessionState R V ι K) :
    Action.Triple (fun s' => s' = s) (disconnect (E := E)) (fun _ _ => True) fun _ s' =>
      s' = { s with entities := s.entities.clear } := by
  apply (clear_triple s).bind
  intro _
  apply (ensureConnected_keeps _).bind
  intro _
  exact Action.Triple.update fun _ _ => trivial

theorem autoCommit_throws (env : Surroundings E) (enabled : Bool) (s : SessionState R V ι K) :
    Action.Triple (fun s' => s' = s) (autoCommit env enabled) (fun _ _ => True) fun _ s' =>
      Framed s s' ∧ s'.leased = s.leased := by
  rintro s' rfl
  refine ⟨fun _ _ => trivial, fun e he => ?_⟩
  rw [autoCommit] at he ⊢
  cases hlease : s'.openLease with
  | none =>
    rw [hlease] at he
    cases he
  | some lease =>
    rw [hlease] at he
    rcases hcall : Connection.setAutocommit enabled env.setAutocommit lease.link with
      ⟨link, _ | _⟩
    · simp only [hcall]
      exact ⟨⟨rfl, rfl, rfl⟩, (openLease_leased hlease).symm⟩
    · simp only [hcall] at he
      cases he

/-- A session call that throws leaves the settings alone, whatever the state, the pool and the
backend. Resolved names and lease go by the kind of the call. -/
theorem throwing_call_leaves (env : Surroundings E) (call : SessionCall)
    (s : SessionState R V ι K) {e : SessionError E} (h : (call.run env s).1 = .error e) :
    LeftBy env call s (call.run env s).2 := by
  cases call with
  | connectString connectionString =>
    obtain ⟨hframe, hlease⟩ := (connect_throws env (.string connectionString) s s rfl).2 e h
    exact ⟨hframe.autoCommit, hframe.identifiers, hframe.entities,
      fun hall => hlease (hall _ rfl)⟩
  | connectSpec spec =>
    obtain ⟨hframe, hlease⟩ := (connect_throws env (.spec spec) s s rfl).2 e h
    exact ⟨hframe.autoCommit, hframe.identifiers, hframe.entities,
      fun hall => hlease (hall _ rfl)⟩
  | disconnect =>
    have hstate := (disconnect_throws s s rfl).2 e h
    have hrun : (SessionCall.disconnect.run env s).2 = { s with entities := s.entities.clear } :=
      hstate
    rw [hrun]
    exact ⟨rfl, rfl, rfl, fun _ => rfl⟩
  | autoCommit enabled =>
    obtain ⟨hframe, hlease⟩ := (autoCommit_throws env enabled s s rfl).2 e h
    exact ⟨hframe.autoCommit, hframe.identifiers, hframe.entities, fun _ => hlease⟩
  | identifierCase policy =>
    have hreturns : (identifierCase policy s : Except (SessionError E) Unit × _).1 = .ok () := by
      rw [identifierCase]
      cases s.openLease with
      | some lease => rfl
      | none => rfl
    cases hreturns.symm.trans h

end

/-- An orm with a lease whose only entity is resolved, and a pool that gives no connection. -/
def resolvedSession : SessionState Unit Unit Unit Unit where
  pooledConn := some ⟨4, true, ⟨⟨true, true, []⟩, []⟩, none⟩
  autoCommit := true
  identifiers := none
  entities := ⟨[⟨(), ⟨['t'], [], some ⟨['d'], ['s'], ['T'], []⟩⟩, []⟩], List.nodup_singleton _⟩

def exhausted : Surroundings Unit := ⟨fun _ => .error (), none, none⟩

theorem throwing_connect_leaves : LeftBy exhausted (.connectString ['x']) resolvedSession
    ((SessionCall.connectString ['x']).run exhausted resolvedSession).2 :=
  throwing_call_leaves exhausted (.connectString ['x']) resolvedSession (e := .pool ()) rfl

/-- `connect` throws, and the entity has lost its resolution. -/
theorem throwing_connect_clears :
    ((SessionCall.connectString ['x']).run exhausted resolvedSession).1 = .error (.pool ()) ∧
      resolvedSession.entities.entries.map (fun e => e.entity.resolved.isSome) = [true] ∧
      ((SessionCall.connectString ['x']).run exhausted resolvedSession).2.entities.entries.map
        (fun e => e.entity.resolved.isSome) = [false] :=
  ⟨rfl, rfl, rfl⟩

end Uniorm.Orm
