import Uniorm.Connection.Target
import Uniorm.Foundation.Transition

/-! # The registry of connection pools and its keys

`connection_pool_registry` keeps one pool for each key. The key of a string is
what an ad-hoc splitter finds under `dsn` and `uid`; the key of a spec is its
scheme, target and user joined by two marks. A connection handed out by
`acquire` was opened from the target of the pool its key selects, so isolation
is a question about keys alone. The exact answer for each target is proved
against every run of the registry.
-/
namespace Uniorm.Pool.Registry
open Foundation Connection

/-- The two keywords as the splitter has read them so far. -/
structure KeyParts where
  dsn : Text
  uid : Text
  deriving DecidableEq, Repr

/-- The values of `key` in `make_key` that name the user. -/
def userKeywords : List Text :=
  [['u', 'i', 'd'], ['u', 's', 'e', 'r'], ['u', 's', 'e', 'r', 'n', 'a', 'm', 'e']]

/-- One token of the loop in `make_key`. A token without `=` is passed over, and a later
keyword overwrites an earlier one. -/
def readToken (parts : KeyParts) (token : Text) : KeyParts :=
  match breakOn ['='] token with
  | none => parts
  | some (before, after) =>
    if toLower (trim before) = ['d', 's', 'n'] then { parts with dsn := trim after }
    else if toLower (trim before) ∈ userKeywords then { parts with uid := trim after }
    else parts

/-- The loop splits at every `;`. The empty piece after a last `;`, which the loop does not
visit, has no `=` and changes nothing. -/
def makeKeyString (connectionString : Text) : Text :=
  let parts := (connectionString.splitOn ';').foldl readToken ⟨[], []⟩
  ['d', 's', 'n', '='] ++ parts.dsn ++ ['|', 'u', 'i', 'd', '='] ++ parts.uid

def targetMark : Text := ['|', 't', 'a', 'r', 'g', 'e', 't', '=']
def userMark : Text := ['|', 'u', 's', 'e', 'r', '=']

def makeKeySpec (spec : ConnectionSpec) : Text :=
  ['s', 'p', 'e', 'c', '='] ++ spec.scheme ++ targetMark ++ spec.target ++ userMark ++ spec.user

def makeKey : Target → Text
  | .string s => makeKeyString s
  | .spec p => makeKeySpec p

theorem makeKeyString_ne_makeKeySpec (s : Text) (p : ConnectionSpec) :
    makeKeyString s ≠ makeKeySpec p := by
  simp [makeKeyString, makeKeySpec]

/-- The added keyword is not one the splitter knows. -/
theorem makeKeyString_withServer {v : Char} (hv : v = '0' ∨ v = '1') (s : Text) :
    makeKeyString (withServer v s) = makeKeyString s := by
  have hsplit : (withServer v s).splitOn ';' =
      (serverKeyword ++ ['=', v]).splitOn ';' ++ s.splitOn ';' := by
    have h := List.splitOnP_append_cons (p := (· == ';')) (serverKeyword ++ ['=', v]) s
      (show (';' == ';') = true from rfl)
    simpa only [withServer, List.append_assoc, List.cons_append, List.nil_append,
      List.splitOn] using h
  have hread : ((serverKeyword ++ ['=', v]).splitOn ';').foldl readToken ⟨[], []⟩ = ⟨[], []⟩ := by
    rcases hv with rfl | rfl <;> rfl
  unfold makeKeyString
  rw [hsplit, List.foldl_append, hread]

def MarkFree (p : ConnectionSpec) : Prop :=
  ¬ targetMark <:+: p.scheme ∧ ¬ targetMark <:+: p.target ∧
    ¬ userMark <:+: p.target ∧ ¬ userMark <:+: p.user

theorem targetMark_alone : '|' ∉ ['t', 'a', 'r', 'g', 'e', 't', '='] := by decide

theorem userMark_alone : '|' ∉ ['u', 's', 'e', 'r', '='] := by decide

theorem MarkFree.spells_alone {p q : ConnectionSpec} (hp : MarkFree p)
    (h : makeKeySpec q = makeKeySpec p) :
    q.scheme = p.scheme ∧ q.target = p.target ∧ q.user = p.user := by
  obtain ⟨hps, hpt, hut, huu⟩ := hp
  have hkey : p.scheme ++ targetMark ++ (p.target ++ userMark ++ p.user) =
      q.scheme ++ targetMark ++ (q.target ++ userMark ++ q.user) := by
    simpa [makeKeySpec] using h.symm
  rcases separator_trichotomy targetMark_alone hkey with
    ⟨hscheme, hrest⟩ | ⟨w, -, hrest⟩ | ⟨w, hscheme, -⟩
  · rcases separator_trichotomy userMark_alone hrest with
      ⟨htarget, huser⟩ | ⟨w, -, huser⟩ | ⟨w, htarget, -⟩
    · exact ⟨hscheme.symm, htarget.symm, huser.symm⟩
    · exact absurd ⟨w, q.user, huser.symm⟩ huu
    · exact absurd ⟨q.target, w, htarget.symm⟩ hut
  · -- The mark of `q` stands behind the one of `p`: inside `p.target`, or its user mark is
    -- a second one of `p`.
    have hrest' : p.target ++ userMark ++ p.user =
        (w ++ targetMark ++ q.target) ++ userMark ++ q.user := by
      simpa [targetMark] using hrest
    rcases separator_trichotomy userMark_alone hrest' with
      ⟨htarget, -⟩ | ⟨w', -, huser⟩ | ⟨w', htarget, -⟩
    · exact absurd ⟨w, q.target, htarget.symm⟩ hpt
    · exact absurd ⟨w', q.user, huser.symm⟩ huu
    · exact absurd ⟨w ++ targetMark ++ q.target, w', htarget.symm⟩ hut
  · exact absurd ⟨q.scheme, w, hscheme.symm⟩ hps

/-- A spec that spells a mark shares its key with one of another scheme, target or user. -/
theorem exists_collision_of_not_markFree {p : ConnectionSpec} (hp : ¬ MarkFree p) :
    ∃ q, makeKeySpec q = makeKeySpec p ∧ ¬ SamePlace (.spec q) (.spec p) := by
  have hcases : targetMark <:+: p.scheme ∨ targetMark <:+: p.target ∨
      userMark <:+: p.target ∨ userMark <:+: p.user := by
    by_contra hnone
    push Not at hnone
    exact hp hnone
  have hlonger : ∀ x y z : Text, y ≠ [] → x ≠ x ++ y ++ z := by
    intro x y z hy h
    have hlen := congrArg List.length h
    have hpos := List.length_pos_iff.mpr hy
    simp only [List.length_append] at hlen
    omega
  rcases hcases with ⟨x, y, hx⟩ | ⟨x, y, hx⟩ | ⟨x, y, hx⟩ | ⟨x, y, hx⟩
  · refine ⟨⟨x, y ++ targetMark ++ p.target, p.user, []⟩, by simp [makeKeySpec, ← hx], ?_⟩
    rintro ⟨hscheme, -⟩
    have hlen := congrArg List.length hscheme
    rw [toLower_length, toLower_length, ← hx] at hlen
    simp [targetMark] at hlen
  · refine ⟨⟨p.scheme ++ targetMark ++ x, y, p.user, []⟩, by simp [makeKeySpec, ← hx], ?_⟩
    rintro ⟨hscheme, -⟩
    have hlen := congrArg List.length hscheme
    rw [toLower_length, toLower_length] at hlen
    simp [targetMark] at hlen
  · refine ⟨⟨p.scheme, x, y ++ userMark ++ p.user, []⟩, by simp [makeKeySpec, ← hx], ?_⟩
    rintro ⟨-, htarget, -⟩
    exact hlonger x userMark y (by decide) (htarget.trans hx.symm)
  · refine ⟨⟨p.scheme, p.target ++ userMark ++ x, y, []⟩, by simp [makeKeySpec, ← hx], ?_⟩
    rintro ⟨-, htarget, -⟩
    exact hlonger p.target userMark x (by decide) htarget.symm

/-- A connection, with the target it was opened from. -/
structure Conn where
  openedFrom : Target
  deriving DecidableEq, Repr

/-- The part of a pool that decides what it hands out: `options.target` and `idle`. -/
structure ConnectionPool where
  target : Target
  idle : List Conn

/-- `pools_`, and the leases outside with the key of the pool they return to. -/
structure ConnectionPoolRegistry where
  pools : Text → Option ConnectionPool
  leases : List (Text × Conn)

def ConnectionPoolRegistry.empty : ConnectionPoolRegistry := ⟨fun _ => none, []⟩

namespace ConnectionPoolRegistry

/-- The shared half of the two `acquire`s: the pool of this key, made if there is none yet. -/
def acquireKeyed (r : ConnectionPoolRegistry) (t : Target) : ConnectionPool :=
  (r.pools (makeKey t)).getD ⟨t, []⟩

def putPool (r : ConnectionPoolRegistry) (key : Text) (pool : ConnectionPool) :
    ConnectionPoolRegistry :=
  { r with pools := Function.update r.pools key (some pool) }

/-- `emplace` keeps a pool that is already there. -/
def configure (r : ConnectionPoolRegistry) (t : Target) : ConnectionPoolRegistry :=
  r.putPool (makeKey t) (r.acquireKeyed t)

def lend (r : ConnectionPoolRegistry) (key : Text) (pool : ConnectionPool) (conn : Conn) :
    ConnectionPoolRegistry :=
  { r.putPool key pool with leases := (key, conn) :: r.leases }

end ConnectionPoolRegistry

inductive Event where
  | configure (t : Target)
  | handOut (asked : Target) (conn : Conn)
  | refuse (asked : Target)
  | giveBack (key : Text) (conn : Conn)
  | retire (key : Text) (conn : Conn)
  | discard (key : Text) (conn : Conn)

/-- One call of the registry, or one change inside a pool. The lookup is atomic under the
registry's mutex and no pool is ever replaced, so `acquire` is one step. -/
inductive Step : ConnectionPoolRegistry → Event → ConnectionPoolRegistry → Prop where
  | configure (r) (t : Target) : Step r (.configure t) (r.configure t)
  | reuse (r) (t : Target) (rest : List Conn) (conn : Conn)
      (hidle : (r.acquireKeyed t).idle = rest ++ [conn]) :
      Step r (.handOut t conn)
        (r.lend (makeKey t) { r.acquireKeyed t with idle := rest } conn)
  | openNew (r) (t : Target) (hidle : (r.acquireKeyed t).idle = []) :
      Step r (.handOut t ⟨(r.acquireKeyed t).target⟩)
        (r.lend (makeKey t) (r.acquireKeyed t) ⟨(r.acquireKeyed t).target⟩)
  | refuse (r) (t : Target) : Step r (.refuse t) (r.configure t)
  | giveBack (r) (key : Text) (conn : Conn) (pool : ConnectionPool)
      (hlease : (key, conn) ∈ r.leases) (hpool : r.pools key = some pool) :
      Step r (.giveBack key conn)
        { r.putPool key { pool with idle := pool.idle ++ [conn] } with
          leases := r.leases.erase (key, conn) }
  | retire (r) (key : Text) (conn : Conn) (hlease : (key, conn) ∈ r.leases) :
      Step r (.retire key conn) { r with leases := r.leases.erase (key, conn) }
  | discard (r) (key : Text) (conn : Conn) (pool : ConnectionPool)
      (hpool : r.pools key = some pool) (hidle : conn ∈ pool.idle) :
      Step r (.discard key conn) (r.putPool key { pool with idle := pool.idle.erase conn })

def system : System ConnectionPoolRegistry Event := ⟨(· = .empty), Step⟩

/-- Whatever stands under a key was opened, or will be opened, from a target of that key. -/
structure Provenance (r : ConnectionPoolRegistry) : Prop where
  target : ∀ key pool, r.pools key = some pool → makeKey pool.target = key
  idle : ∀ key pool, r.pools key = some pool → ∀ conn ∈ pool.idle, makeKey conn.openedFrom = key
  lease : ∀ key conn, (key, conn) ∈ r.leases → makeKey conn.openedFrom = key

theorem Provenance.acquireKeyed {r : ConnectionPoolRegistry} (h : Provenance r) (t : Target) :
    makeKey (r.acquireKeyed t).target = makeKey t ∧
      ∀ conn ∈ (r.acquireKeyed t).idle, makeKey conn.openedFrom = makeKey t := by
  unfold ConnectionPoolRegistry.acquireKeyed
  cases hp : r.pools (makeKey t) with
  | none => simp
  | some pool => exact ⟨h.target _ _ hp, h.idle _ _ hp⟩

theorem Provenance.putPool {r : ConnectionPoolRegistry} (h : Provenance r) {key : Text}
    (pool : ConnectionPool) (htarget : makeKey pool.target = key)
    (hidle : ∀ conn ∈ pool.idle, makeKey conn.openedFrom = key) : Provenance (r.putPool key pool) := by
  refine ⟨?_, ?_, h.lease⟩
  · intro key' pool' hp
    by_cases hk : key' = key
    · subst hk
      simp only [ConnectionPoolRegistry.putPool, Function.update_self, Option.some.injEq] at hp
      exact hp ▸ htarget
    · simp only [ConnectionPoolRegistry.putPool, Function.update_of_ne hk] at hp
      exact h.target _ _ hp
  · intro key' pool' hp
    by_cases hk : key' = key
    · subst hk
      simp only [ConnectionPoolRegistry.putPool, Function.update_self, Option.some.injEq] at hp
      exact hp ▸ hidle
    · simp only [ConnectionPoolRegistry.putPool, Function.update_of_ne hk] at hp
      exact h.idle _ _ hp

theorem Provenance.withLeases {r : ConnectionPoolRegistry} (h : Provenance r)
    {leases : List (Text × Conn)}
    (hl : ∀ key conn, (key, conn) ∈ leases → makeKey conn.openedFrom = key) :
    Provenance { r with leases := leases } := ⟨h.target, h.idle, hl⟩

theorem Provenance.step {r r' : ConnectionPoolRegistry} {e : Event} (h : Provenance r)
    (hs : Step r e r') : Provenance r' := by
  have herase : ∀ p : Text × Conn, ∀ key conn, (key, conn) ∈ r.leases.erase p →
      makeKey conn.openedFrom = key :=
    fun p key conn hm => h.lease key conn (List.mem_of_mem_erase hm)
  cases hs with
  | configure t => exact h.putPool _ (h.acquireKeyed t).1 (h.acquireKeyed t).2
  | refuse t => exact h.putPool _ (h.acquireKeyed t).1 (h.acquireKeyed t).2
  | reuse t rest conn hidle =>
    obtain ⟨htarget, hall⟩ := h.acquireKeyed t
    rw [hidle] at hall
    refine (h.putPool { r.acquireKeyed t with idle := rest } htarget
      fun c hc => hall c (List.mem_append_left _ hc)).withLeases ?_
    intro key c hm
    rcases List.mem_cons.mp hm with heq | hm
    · cases heq
      exact hall conn (by simp)
    · exact h.lease key c hm
  | openNew t hidle =>
    obtain ⟨htarget, hall⟩ := h.acquireKeyed t
    refine (h.putPool _ htarget hall).withLeases ?_
    intro key c hm
    rcases List.mem_cons.mp hm with heq | hm
    · cases heq
      exact htarget
    · exact h.lease key c hm
  | giveBack key conn pool hlease hpool =>
    refine (h.putPool { pool with idle := pool.idle ++ [conn] }
      (h.target key pool hpool) ?_).withLeases (herase _)
    intro c hc
    rcases List.mem_append.mp hc with hc | hc
    · exact h.idle _ _ hpool c hc
    · rw [List.mem_singleton.mp hc]
      exact h.lease key conn hlease
  | retire key conn hlease => exact h.withLeases (herase _)
  | discard key conn pool hpool hidle =>
    exact h.putPool { pool with idle := pool.idle.erase conn } (h.target key pool hpool)
      fun c hc => h.idle _ _ hpool c (List.mem_of_mem_erase hc)

theorem reachable_provenance {r : ConnectionPoolRegistry} (h : system.Reachable r) :
    Provenance r := by
  refine h.invariant (I := Provenance) ?_ fun _ _ _ _ hI _ hs => hI.step hs
  rintro r rfl
  exact ⟨by simp [ConnectionPoolRegistry.empty], by simp [ConnectionPoolRegistry.empty],
    by simp [ConnectionPoolRegistry.empty]⟩

/-- `acquire` hands out a connection opened from some target of the same key. -/
theorem handOut_sameKey {r r' : ConnectionPoolRegistry} {t : Target} {conn : Conn}
    (h : system.Reachable r) (hs : Step r (.handOut t conn) r') :
    makeKey conn.openedFrom = makeKey t := by
  obtain ⟨htarget, hall⟩ := (reachable_provenance h).acquireKeyed t
  cases hs with
  | reuse _ rest _ hidle => exact hall conn (by simp [hidle])
  | openNew _ hidle => exact htarget

/-- Conversely every target of the same key can be the one it was opened from. -/
theorem exists_handOut {t t' : Target} (hkey : makeKey t' = makeKey t) :
    ∃ r r', system.Reachable r ∧ Step r (.handOut t ⟨t'⟩) r' := by
  have hpool : (ConnectionPoolRegistry.empty.configure t').acquireKeyed t = ⟨t', []⟩ := by
    simp [ConnectionPoolRegistry.configure, ConnectionPoolRegistry.acquireKeyed,
      ConnectionPoolRegistry.putPool, ConnectionPoolRegistry.empty, hkey]
  have hopen := Step.openNew (ConnectionPoolRegistry.empty.configure t') t (by rw [hpool])
  rw [hpool] at hopen
  exact ⟨_, _, .next (.start rfl) trivial (.configure _ t'), hopen⟩

/-- In every run, what `acquire(t)` hands out was opened from the place and user of `t`. -/
def Isolated (t : Target) : Prop :=
  ∀ r r' conn, system.Reachable r → Step r (.handOut t conn) r' → SamePlace conn.openedFrom t

theorem isolated_iff_key (t : Target) :
    Isolated t ↔ ∀ t', makeKey t' = makeKey t → SamePlace t' t := by
  constructor
  · intro h t' hkey
    obtain ⟨r, r', hr, hs⟩ := exists_handOut hkey
    exact h r r' ⟨t'⟩ hr hs
  · intro h r r' conn hr hs
    exact h _ (handOut_sameKey hr hs)

/-- The targets no other target is mistaken for: a spec none of whose pieces spells a mark.
No connection string is among them. -/
def KeyedApart : Target → Prop
  | .string _ => False
  | .spec p => MarkFree p

/-- A target is isolated in every run exactly when it is a spec free of the key's marks. -/
theorem registry_isolation_iff (t : Target) : Isolated t ↔ KeyedApart t := by
  rw [isolated_iff_key]
  cases t with
  | string s =>
    refine iff_of_false ?_ id
    intro h
    obtain ⟨v, hv, hplace⟩ := exists_withServer_not_samePlace s
    exact hplace (h (.string (withServer v s)) (makeKeyString_withServer hv s))
  | spec p =>
    constructor
    · intro h
      by_contra hp
      obtain ⟨q, hkey, hplace⟩ := exists_collision_of_not_markFree hp
      exact hplace (h (.spec q) hkey)
    · intro hp t' hkey
      cases t' with
      | string s => exact absurd hkey (makeKeyString_ne_makeKeySpec s p)
      | spec q =>
        obtain ⟨hscheme, htarget, huser⟩ := MarkFree.spells_alone hp hkey
        exact ⟨by rw [hscheme], htarget, huser⟩

def firstDatabase : Target :=
  .string ['p', 'o', 's', 't', 'g', 'r', 'e', 's', 'q', 'l', ':', '/', '/', 'h', '/', 'a']

def secondDatabase : Target :=
  .string ['p', 'o', 's', 't', 'g', 'r', 'e', 's', 'q', 'l', ':', '/', '/', 'h', '/', 'b']

/-- Asking for one database of a server can hand out a connection to another one. -/
theorem registry_mixes_databases :
    ∃ r r' conn, system.Reachable r ∧ Step r (.handOut secondDatabase conn) r' ∧
      conn.openedFrom = firstDatabase ∧ ¬ SamePlace conn.openedFrom secondDatabase := by
  have hkey : makeKey firstDatabase = makeKey secondDatabase := rfl
  obtain ⟨r, r', hr, hs⟩ := exists_handOut hkey
  refine ⟨r, r', _, hr, hs, rfl, ?_⟩
  rintro ⟨-, htail⟩
  rw [if_neg (by decide)] at htail
  exact absurd htail (by decide)

end Uniorm.Pool.Registry
