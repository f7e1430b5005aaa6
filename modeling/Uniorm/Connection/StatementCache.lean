import Mathlib.Data.List.AList
import Mathlib.Data.List.Perm.Basic
import Mathlib.Algebra.Order.Group.Multiset
import Mathlib.Data.Multiset.Range
import Mathlib.Tactic.Abel

/-! # The cache of prepared statements

A connection keeps idle statements under the text they were prepared from. One that is acquired
leaves the cache and comes back when its user returns it; a failing `prepare` or `reset` throws, and
the statement it was called on is destroyed on the way out. The entries and their order are kept
apart and brought up to date one after the other.
-/
namespace Uniorm.Connection

/- Texts are only ever compared. -/
variable {Text : Type*}

structure Statement (Text : Type*) where
  handle : ℕ
  text : Text
  deriving DecidableEq

variable [DecidableEq Text]

structure StatementCache (Text : Type*) where
  entries : AList fun _ : Text => Statement Text := ∅
  /-- The texts of the entries, the most recently returned first. -/
  lru : List Text := []
  capacity : ℕ := 64
  hits : ℕ := 0
  misses : ℕ := 0

namespace StatementCache
variable {ε : Type*}

def take (sql : Text) (cache : StatementCache Text) : StatementCache Text :=
  { cache with
    hits := cache.hits + 1
    entries := cache.entries.erase sql
    lru := cache.lru.filter (· != sql) }

def acquire (sql : Text) (prepare : Text → Except ε (Statement Text))
    (reset : Statement Text → Except ε Unit) (cache : StatementCache Text) :
      Except ε (Statement Text) × StatementCache Text :=
  match cache.entries.lookup sql with
  | some stmt => ((reset stmt).map fun _ => stmt, cache.take sql)
  | none => (prepare sql, { cache with misses := cache.misses + 1 })

/-- The entry is put in front. -/
def keep (sql : Text) (stmt : Statement Text) (cache : StatementCache Text) : StatementCache Text :=
  { cache with entries := cache.entries.insert sql stmt, lru := sql :: cache.lru }

/-- The entry that was returned longest ago is dropped. -/
def evict (victim : Text) (cache : StatementCache Text) : StatementCache Text :=
  { cache with entries := cache.entries.erase victim, lru := cache.lru.dropLast }

/-- The cache after a statement is returned, and the statements that are destroyed. There is none
when an entry is to be evicted and the list of texts is empty, which has no defined behaviour. -/
def release (sql : Text) (stmt : Statement Text) (cache : StatementCache Text) :
    Option (StatementCache Text × List (Statement Text)) :=
  if cache.entries.keys.contains sql then some (cache, [stmt])
  else if cache.capacity ≤ cache.entries.entries.length then
    match cache.lru.getLast? with
    | some victim =>
      some ((cache.evict victim).keep sql stmt, (cache.entries.lookup victim).toList)
    | none => none
  else some (cache.keep sql stmt, [])

def cached (cache : StatementCache Text) : Multiset (Statement Text) :=
  (cache.entries.entries.map fun e => e.2 : List (Statement Text))

def clear (cache : StatementCache Text) : StatementCache Text :=
  { cache with entries := ∅, lru := [] }

end StatementCache

/-- The cache of a connection and the statements that are not in it. -/
structure Desk (Text : Type*) where
  cache : StatementCache Text := {}
  /-- The statements that are checked out, each with the key it is to be returned under. -/
  out : List (Text × Statement Text) := []
  destroyed : List (Statement Text) := []
  /-- The statements in the order of their returns, the last one first. -/
  returned : List (Statement Text) := []
  /-- The number of calls of `acquire`. -/
  acquires : ℕ := 0

/-- What the users of a connection do. A statement that is abandoned is destroyed by its user. -/
inductive Use (Text : Type*) where
  | acquire (sql : Text) (works : Bool)
  | release (i : ℕ)
  | abandon (i : ℕ)
  | clear

namespace Desk

def attempt (works : Bool) (stmt : Statement Text) : Except (Statement Text) (Statement Text) :=
  if works then .ok stmt else .error stmt

/-- `connection::acquire_statement`. Each miss makes a statement, which is named by the number of
misses before it. -/
def acquireStatement (sql : Text) (works : Bool) (desk : Desk Text) : Desk Text :=
  match desk.cache.acquire sql (fun text => attempt works ⟨desk.cache.misses, text⟩)
      (fun stmt => (attempt works stmt).map fun _ => ()) with
  | (.ok stmt, cache) =>
    { desk with cache, out := (sql, stmt) :: desk.out, acquires := desk.acquires + 1 }
  | (.error stmt, cache) =>
    { desk with cache, destroyed := stmt :: desk.destroyed, acquires := desk.acquires + 1 }

/-- `connection::release_statement`, or the call of a releaser. -/
def releaseStatement (i : ℕ) (desk : Desk Text) : Option (Desk Text) :=
  match desk.out[i]? with
  | none => some desk
  | some (key, stmt) =>
    (desk.cache.release key stmt).map fun (cache, gone) =>
      { desk with
        cache
        out := desk.out.eraseIdx i
        destroyed := gone ++ desk.destroyed
        returned := stmt :: desk.returned }

def abandon (i : ℕ) (desk : Desk Text) : Desk Text :=
  match desk.out[i]? with
  | none => desk
  | some (_, stmt) =>
    { desk with out := desk.out.eraseIdx i, destroyed := stmt :: desk.destroyed }

def clearStatementCache (desk : Desk Text) : Desk Text :=
  { desk with
    cache := desk.cache.clear
    destroyed := desk.cache.entries.entries.map (fun e => e.2) ++ desk.destroyed }

def step (desk : Desk Text) : Use Text → Option (Desk Text)
  | .acquire sql works => some (desk.acquireStatement sql works)
  | .release i => desk.releaseStatement i
  | .abandon i => some (desk.abandon i)
  | .clear => some desk.clearStatementCache

/-- A connection that is new, and then used. -/
def run (uses : List (Use Text)) : Option (Desk Text) := uses.foldlM step {}

end Desk

namespace StatementCache
variable {cache : StatementCache Text} {sql : Text} {stmt : Statement Text}

theorem mem_cached : stmt ∈ cache.cached ↔ ∃ text, cache.entries.lookup text = some stmt := by
  simp only [cached, Multiset.mem_coe, List.mem_map]
  constructor
  · intro h
    obtain ⟨e, he, rfl⟩ := h
    exact ⟨e.1, AList.mem_lookup_iff.mpr he⟩
  · intro h
    obtain ⟨text, htext⟩ := h
    exact ⟨⟨text, stmt⟩, AList.mem_lookup_iff.mp htext, rfl⟩

theorem cached_erase (h : cache.entries.lookup sql = some stmt) :
    cache.cached = stmt ::ₘ (cache.evict sql).cached := by
  have hmem : sql ∈ cache.entries.entries.keys := AList.lookup_isSome.mp (by rw [h]; rfl)
  obtain ⟨b, before, after, -, hentries, herase⟩ := List.exists_of_kerase hmem
  have hb : b = stmt := by
    have hlookup : b ∈ cache.entries.lookup sql := by
      rw [AList.mem_lookup_iff, hentries]
      simp
    rw [h] at hlookup
    exact (Option.some.inj hlookup).symm
  have hrest : (cache.evict sql).entries.entries = before ++ after := herase
  simp only [cached, hentries, hrest, hb, List.map_append, List.map_cons, Multiset.cons_coe]
  exact Multiset.coe_eq_coe.mpr List.perm_middle

theorem cached_keep (h : sql ∉ cache.entries) :
    (cache.keep sql stmt).cached = stmt ::ₘ cache.cached := by
  simp only [cached, keep, AList.entries_insert_of_notMem h, List.map_cons, Multiset.cons_coe]

theorem length_keep (h : sql ∉ cache.entries) :
    (cache.keep sql stmt).entries.entries.length = cache.entries.entries.length + 1 := by
  simp only [keep, AList.entries_insert_of_notMem h, List.length_cons]

omit [DecidableEq Text] in
theorem length_keys : cache.entries.keys.length = cache.entries.entries.length :=
  List.length_map _

structure WellFormed (cache : StatementCache Text) : Prop where
  lru : cache.lru.Perm cache.entries.keys
  size : cache.entries.entries.length ≤ cache.capacity
  room : 0 < cache.capacity
  texts : ∀ text stmt, cache.entries.lookup text = some stmt → stmt.text = text

namespace WellFormed

theorem lookup_take {text : Text} (h : (cache.take sql).entries.lookup text = some stmt) :
    cache.entries.lookup text = some stmt := by
  by_cases htext : text = sql
  · subst htext
    rw [take, AList.lookup_erase] at h
    cases h
  · rwa [take, AList.lookup_erase_ne htext] at h

theorem take (h : cache.WellFormed) : (cache.take sql).WellFormed where
  lru := by
    have hnodup := (h.lru.nodup_iff).mpr cache.entries.keys_nodup
    have hfilter : cache.lru.filter (· != sql) = cache.lru.erase sql :=
      (hnodup.erase_eq_filter sql).symm
    rw [StatementCache.take, hfilter, AList.keys_erase]
    exact h.lru.erase sql
  size := ((List.kerase_sublist sql _).length_le).trans h.size
  room := h.room
  texts _ _ htext := h.texts _ _ (lookup_take htext)

theorem miss (h : cache.WellFormed) :
    ({ cache with misses := cache.misses + 1 } : StatementCache Text).WellFormed :=
  ⟨h.lru, h.size, h.room, h.texts⟩

theorem clear (h : cache.WellFormed) : cache.clear.WellFormed where
  lru := .nil
  size := Nat.zero_le _
  room := h.room
  texts _ _ htext := by
    rw [StatementCache.clear, AList.lookup_empty] at htext
    cases htext

theorem keep (h : cache.WellFormed) (hroom : cache.entries.entries.length < cache.capacity)
    (hsql : sql ∉ cache.entries) (hstmt : stmt.text = sql) : (cache.keep sql stmt).WellFormed where
  lru := by
    rw [StatementCache.keep, AList.keys_insert, List.erase_of_not_mem hsql]
    exact h.lru.cons sql
  size := by
    rw [length_keep hsql]
    exact hroom
  room := h.room
  texts text s htext := by
    by_cases heq : text = sql
    · subst heq
      rw [StatementCache.keep, AList.lookup_insert] at htext
      obtain rfl := Option.some.inj htext
      exact hstmt
    · rw [StatementCache.keep, AList.lookup_insert_ne heq] at htext
      exact h.texts text s htext

theorem exists_victim (h : cache.WellFormed)
    (hfull : cache.capacity ≤ cache.entries.entries.length) :
    ∃ victim evicted, cache.lru = cache.lru.dropLast ++ [victim] ∧
      cache.lru.getLast? = some victim ∧ cache.entries.lookup victim = some evicted := by
  have hne : cache.lru ≠ [] := by
    intro hnil
    have hlength := h.lru.length_eq
    rw [hnil, length_keys] at hlength
    have hroom := h.room
    simp only [List.length_nil] at hlength
    omega
  have hmem : cache.lru.getLast hne ∈ cache.entries := h.lru.mem_iff.mp (List.getLast_mem hne)
  obtain ⟨evicted, hevicted⟩ := Option.isSome_iff_exists.mp (AList.lookup_isSome.mpr hmem)
  exact ⟨_, evicted, (List.dropLast_append_getLast hne).symm, List.getLast?_eq_some_getLast hne,
    hevicted⟩

theorem evict (h : cache.WellFormed) {victim : Text}
    (hlru : cache.lru = cache.lru.dropLast ++ [victim]) :
    (cache.evict victim).WellFormed where
  lru := by
    rw [StatementCache.evict, AList.keys_erase]
    have hperm : (cache.lru.dropLast ++ [victim]).Perm cache.entries.keys := hlru ▸ h.lru
    have hcons := (List.perm_append_singleton victim cache.lru.dropLast).symm.trans hperm
    exact (hcons.erase victim).symm.trans (by rw [List.erase_cons_head]) |>.symm
  size := ((List.kerase_sublist victim _).length_le).trans h.size
  room := h.room
  texts text s htext := by
    by_cases heq : text = victim
    · subst heq
      rw [StatementCache.evict, AList.lookup_erase] at htext
      cases htext
    · rw [StatementCache.evict, AList.lookup_erase_ne heq] at htext
      exact h.texts text s htext

end WellFormed

def After (returned : List (Statement Text)) (cache : StatementCache Text) (a b : Text) : Prop :=
  ∀ s t, cache.entries.lookup a = some s → cache.entries.lookup b = some t →
    returned.idxOf s < returned.idxOf t

structure Ordered (returned : List (Statement Text)) (cache : StatementCache Text) : Prop where
  known : ∀ s ∈ cache.cached, s ∈ returned
  order : cache.lru.Pairwise (cache.After returned)

namespace Ordered
variable {returned : List (Statement Text)}

theorem shrink (h : cache.Ordered returned) {cache' : StatementCache Text}
    (hlru : cache'.lru.Sublist cache.lru)
    (hlookup : ∀ text s, cache'.entries.lookup text = some s → cache.entries.lookup text = some s) :
    cache'.Ordered returned where
  known s hs := by
    obtain ⟨text, htext⟩ := mem_cached.mp hs
    exact h.known s (mem_cached.mpr ⟨text, hlookup text s htext⟩)
  order := by
    apply (h.order.sublist hlru).imp
    intro a b hab s t hs ht
    exact hab s t (hlookup a s hs) (hlookup b t ht)

theorem idxOf_push {s : Statement Text} (h : s ≠ stmt) :
    (stmt :: returned).idxOf s = returned.idxOf s + 1 := List.idxOf_cons_ne returned h.symm

theorem push (h : cache.Ordered returned) (hstmt : stmt ∉ cache.cached) :
    cache.Ordered (stmt :: returned) where
  known s hs := List.mem_cons_of_mem _ (h.known s hs)
  order := by
    apply h.order.imp
    intro a b hab s t hs ht
    have hne (u : Statement Text) (text : Text) (hu : cache.entries.lookup text = some u) :
        u ≠ stmt := by
      rintro rfl
      exact hstmt (mem_cached.mpr ⟨text, hu⟩)
    rw [idxOf_push (hne s a hs), idxOf_push (hne t b ht)]
    exact Nat.succ_lt_succ (hab s t hs ht)

/-- It is put in front. -/
theorem keep (h : cache.Ordered (stmt :: returned)) (hstmt : stmt ∉ cache.cached)
    (hsql : sql ∉ cache.entries) (hlru : ∀ text ∈ cache.lru, text ∈ cache.entries) :
    (cache.keep sql stmt).Ordered (stmt :: returned) where
  known s hs := by
    rw [cached_keep hsql, Multiset.mem_cons] at hs
    rcases hs with rfl | hs
    · exact List.mem_cons_self
    · exact h.known s hs
  order := by
    have hne : ∀ text ∈ cache.lru, text ≠ sql := fun text htext heq => hsql (heq ▸ hlru text htext)
    rw [StatementCache.keep, List.pairwise_cons]
    constructor
    · intro b hb s t hs ht
      rw [AList.lookup_insert] at hs
      obtain rfl := Option.some.inj hs
      rw [AList.lookup_insert_ne (hne b hb)] at ht
      have hts : t ≠ stmt := by
        rintro rfl
        exact hstmt (mem_cached.mpr ⟨b, ht⟩)
      rw [idxOf_push hts, List.idxOf_cons_self]
      exact Nat.succ_pos _
    · apply List.Pairwise.imp_of_mem _ h.order
      intro a b ha hb hab s t hs ht
      rw [AList.lookup_insert_ne (hne a ha)] at hs
      rw [AList.lookup_insert_ne (hne b hb)] at ht
      exact hab s t hs ht

theorem last (h : cache.Ordered returned) (hwell : cache.WellFormed) {victim : Text}
    {evicted : Statement Text} (hlru : cache.lru = cache.lru.dropLast ++ [victim])
    (hevicted : cache.entries.lookup victim = some evicted) :
    ∀ s ∈ cache.cached, s ≠ evicted → returned.idxOf s < returned.idxOf evicted := by
  intro s hs hne
  obtain ⟨text, htext⟩ := mem_cached.mp hs
  have hmem : text ∈ cache.lru :=
    hwell.lru.mem_iff.mpr (AList.lookup_isSome.mp (by rw [htext]; rfl))
  have horder := h.order
  rw [hlru, List.pairwise_append] at horder
  rw [hlru, List.mem_append, List.mem_singleton] at hmem
  rcases hmem with hmem | rfl
  · exact horder.2.2 text hmem victim (List.mem_singleton_self _) s evicted htext hevicted
  · exact absurd (Option.some.inj (htext.symm.trans hevicted)) hne

end Ordered

/-- What becomes of a statement that is returned: it is destroyed, or kept in the place of the one
that was returned longest ago, or kept in a free place. -/
inductive Settles (returned : List (Statement Text)) (cache : StatementCache Text) (sql : Text)
    (stmt : Statement Text) : StatementCache Text → List (Statement Text) → Prop where
  | dropped (hsql : sql ∈ cache.entries) : Settles returned cache sql stmt cache [stmt]
  | replaces {victim : Text} {evicted : Statement Text} (hsql : sql ∉ cache.entries)
      (hfull : cache.capacity ≤ cache.entries.entries.length)
      (hlru : cache.lru = cache.lru.dropLast ++ [victim])
      (hevicted : cache.entries.lookup victim = some evicted)
      (hlast : ∀ s ∈ cache.cached, s ≠ evicted → returned.idxOf s < returned.idxOf evicted) :
      Settles returned cache sql stmt ((cache.evict victim).keep sql stmt) [evicted]
  | added (hsql : sql ∉ cache.entries) (hroom : cache.entries.entries.length < cache.capacity) :
      Settles returned cache sql stmt (cache.keep sql stmt) []

theorem release_settles {returned : List (Statement Text)} (h : cache.WellFormed)
    (horder : cache.Ordered returned) (sql : Text) (stmt : Statement Text) :
    ∃ next gone, cache.release sql stmt = some (next, gone) ∧
      cache.Settles returned sql stmt next gone := by
  by_cases hsql : sql ∈ cache.entries
  · have hcontains : cache.entries.keys.contains sql = true := List.contains_iff_mem.mpr hsql
    exact ⟨_, _, by rw [release, if_pos hcontains], .dropped hsql⟩
  · have hcontains : ¬ cache.entries.keys.contains sql = true :=
      fun hmem => hsql (List.contains_iff_mem.mp hmem)
    by_cases hfull : cache.capacity ≤ cache.entries.entries.length
    · obtain ⟨victim, evicted, hlru, hlast, hevicted⟩ := h.exists_victim hfull
      have hrelease : cache.release sql stmt =
          some ((cache.evict victim).keep sql stmt, [evicted]) := by
        rw [release, if_neg hcontains, if_pos hfull, hlast]
        simp only [hevicted, Option.toList_some]
      exact ⟨_, _, hrelease,
        .replaces hsql hfull hlru hevicted (horder.last h hlru hevicted)⟩
    · have hrelease : cache.release sql stmt = some (cache.keep sql stmt, []) := by
        rw [release, if_neg hcontains, if_neg hfull]
      exact ⟨_, _, hrelease, .added hsql (Nat.lt_of_not_le hfull)⟩

namespace Settles
variable {returned : List (Statement Text)} {next : StatementCache Text}
  {gone : List (Statement Text)}

theorem not_mem_evict (hsql : sql ∉ cache.entries) (victim : Text) :
    sql ∉ (cache.evict victim).entries := by
  intro hmem
  rw [evict, AList.mem_erase] at hmem
  exact hsql hmem.2

/-- A statement that is returned goes to the cache or is destroyed, and so does the one it
replaces. -/
theorem places (h : cache.Settles returned sql stmt next gone) :
    next.cached + gone = stmt ::ₘ cache.cached := by
  cases h with
  | dropped => exact add_comm _ _
  | replaces hsql _ _ hevicted =>
    rw [cached_keep (not_mem_evict hsql _), cached_erase hevicted, Multiset.cons_add]
    exact congrArg (stmt ::ₘ ·) (add_comm _ _)
  | added hsql => rw [cached_keep hsql, Multiset.coe_nil, add_zero]

theorem counters (h : cache.Settles returned sql stmt next gone) :
    next.hits = cache.hits ∧ next.misses = cache.misses := by
  cases h with
  | _ => exact ⟨rfl, rfl⟩

theorem wellFormed (h : cache.Settles returned sql stmt next gone) (hwell : cache.WellFormed)
    (hstmt : stmt.text = sql) : next.WellFormed := by
  cases h with
  | dropped => exact hwell
  | @replaces victim _ hsql _ hlru hevicted =>
    have hlength := congrArg Multiset.card (cached_erase hevicted)
    simp only [cached, Multiset.coe_card, List.length_map, Multiset.card_cons] at hlength
    have hroom : (cache.evict victim).entries.entries.length < cache.capacity := by
      have hsize := hwell.size
      omega
    exact (hwell.evict hlru).keep hroom (not_mem_evict hsql _) hstmt
  | added hsql hroom => exact hwell.keep hroom hsql hstmt

theorem ordered (h : cache.Settles returned sql stmt next gone) (hwell : cache.WellFormed)
    (horder : cache.Ordered returned) (hstmt : stmt ∉ cache.cached) :
    next.Ordered (stmt :: returned) := by
  have hpush := horder.push hstmt
  cases h with
  | dropped => exact hpush
  | @replaces victim evicted hsql _ hlru hevicted =>
    have hshrink : (cache.evict victim).Ordered (stmt :: returned) := by
      apply hpush.shrink (List.dropLast_sublist _)
      intro text s hs
      by_cases heq : text = victim
      · subst heq
        rw [evict, AList.lookup_erase] at hs
        cases hs
      · rwa [evict, AList.lookup_erase_ne heq] at hs
    have hnew : stmt ∉ (cache.evict victim).cached := by
      intro hmem
      apply hstmt
      rw [cached_erase hevicted]
      exact Multiset.mem_cons_of_mem hmem
    have hlru' := (hwell.evict hlru).lru
    exact hshrink.keep hnew (not_mem_evict hsql _) fun text htext => hlru'.mem_iff.mp htext
  | added hsql => exact hpush.keep hstmt hsql fun text htext => hwell.lru.mem_iff.mp htext

end Settles

end StatementCache

namespace Desk
open StatementCache

def statements (desk : Desk Text) : Multiset (Statement Text) :=
  desk.cache.cached + (desk.out.map fun c => c.2 : List (Statement Text)) + desk.destroyed

/-- What holds of a connection between two calls of its users. -/
structure Sound (desk : Desk Text) : Prop where
  cache : desk.cache.WellFormed
  keys : ∀ c ∈ desk.out, c.2.text = c.1
  places : desk.statements.map Statement.handle = Multiset.range desk.cache.misses
  order : desk.cache.Ordered desk.returned
  stays : ∀ s ∈ desk.returned, s ∈ desk.statements
  counts : desk.cache.hits + desk.cache.misses = desk.acquires

omit [DecidableEq Text] in
theorem statements_nodup {desk : Desk Text}
    (h : desk.statements.map Statement.handle = Multiset.range desk.cache.misses) :
    desk.statements.Nodup := by
  apply Multiset.Nodup.of_map Statement.handle
  rw [h]
  exact Multiset.nodup_range _

theorem sound_start : Sound ({} : Desk Text) where
  cache := ⟨.nil, Nat.zero_le _, Nat.succ_pos 63, fun text stmt h => by
    rw [AList.lookup_empty] at h
    cases h⟩
  keys c hc := absurd hc List.not_mem_nil
  places := rfl
  order := ⟨fun s hs => absurd hs (Multiset.notMem_zero s), .nil⟩
  stays s hs := absurd hs List.not_mem_nil
  counts := rfl

def obtained (sql : Text) (cache : StatementCache Text) : Statement Text × StatementCache Text :=
  match cache.entries.lookup sql with
  | some stmt => (stmt, cache.take sql)
  | none => (⟨cache.misses, sql⟩, { cache with misses := cache.misses + 1 })

theorem acquireStatement_eq (sql : Text) (works : Bool) (desk : Desk Text) :
    desk.acquireStatement sql works =
      { desk with
        cache := (obtained sql desk.cache).2
        out := if works then (sql, (obtained sql desk.cache).1) :: desk.out else desk.out
        destroyed :=
          if works then desk.destroyed else (obtained sql desk.cache).1 :: desk.destroyed
        acquires := desk.acquires + 1 } := by
  rw [acquireStatement, acquire, obtained]
  cases desk.cache.entries.lookup sql with
  | some stmt => cases works <;> rfl
  | none => cases works <;> rfl

/-- The statement comes out of the cache, or it is new. -/
theorem obtained_cases (sql : Text) (cache : StatementCache Text) :
    (∃ stmt, cache.entries.lookup sql = some stmt ∧ obtained sql cache = (stmt, cache.take sql)) ∨
      obtained sql cache = (⟨cache.misses, sql⟩, { cache with misses := cache.misses + 1 }) := by
  rw [obtained]
  cases cache.entries.lookup sql with
  | some stmt => exact .inl ⟨stmt, rfl, rfl⟩
  | none => exact .inr rfl

section
variable {desk : Desk Text} {sql : Text}

theorem statements_acquire (works : Bool) : (desk.acquireStatement sql works).statements =
    (obtained sql desk.cache).1 ::ₘ ((obtained sql desk.cache).2.cached +
      (desk.out.map fun c => c.2 : List (Statement Text)) + desk.destroyed) := by
  rw [acquireStatement_eq, statements]
  cases works with
  | true =>
    simp only [if_true, List.map_cons, ← Multiset.cons_coe, Multiset.add_cons, Multiset.cons_add]
  | false => simp only [Bool.false_eq_true, if_false, ← Multiset.cons_coe, Multiset.add_cons]

theorem Sound.acquire (h : desk.Sound) (works : Bool) : (desk.acquireStatement sql works).Sound := by
  have hall := @statements_acquire _ _ desk sql works
  have heq := acquireStatement_eq sql works desk
  have hkeys (stmt : Statement Text) (hstmt : stmt.text = sql) (c : Text × Statement Text)
      (hc : c ∈ if works then (sql, stmt) :: desk.out else desk.out) : c.2.text = c.1 := by
    cases works with
    | true =>
      rcases List.mem_cons.mp hc with rfl | hc
      · exact hstmt
      · exact h.keys c hc
    | false => exact h.keys c hc
  rcases obtained_cases sql desk.cache with hhit | hmiss
  · obtain ⟨stmt, hlookup, hobtained⟩ := hhit
    have hsame : (desk.acquireStatement sql works).statements = desk.statements := by
      rw [hall, hobtained, statements, cached_erase hlookup, Multiset.cons_add, Multiset.cons_add]
      rfl
    rw [hobtained] at heq
    constructor
    · rw [heq]
      exact h.cache.take
    · rw [heq]
      exact hkeys stmt (h.cache.texts sql stmt hlookup)
    · rw [hsame, heq]
      exact h.places
    · rw [heq]
      exact h.order.shrink List.filter_sublist fun text s hs => WellFormed.lookup_take hs
    · rw [hsame, heq]
      exact h.stays
    · rw [heq]
      have hcounts := h.counts
      change desk.cache.hits + 1 + desk.cache.misses = desk.acquires + 1
      omega
  · have hnew : (desk.acquireStatement sql works).statements =
        ⟨desk.cache.misses, sql⟩ ::ₘ desk.statements := by
      rw [hall, hmiss]
      rfl
    rw [hmiss] at heq
    constructor
    · rw [heq]
      exact h.cache.miss
    · rw [heq]
      exact hkeys _ rfl
    · rw [hnew, heq, Multiset.map_cons, h.places]
      exact (Multiset.range_succ _).symm
    · rw [heq]
      exact ⟨h.order.known, h.order.order⟩
    · rw [hnew, heq]
      exact fun s hs => Multiset.mem_cons_of_mem (h.stays s hs)
    · rw [heq]
      have hcounts := h.counts
      change desk.cache.hits + (desk.cache.misses + 1) = desk.acquires + 1
      omega

omit [DecidableEq Text] in
theorem out_eraseIdx {i : ℕ} {c : Text × Statement Text} (h : desk.out[i]? = some c) :
    ((desk.out.map fun c => c.2 : List (Statement Text)) : Multiset (Statement Text)) =
      c.2 ::ₘ ((desk.out.eraseIdx i).map fun c => c.2 : List (Statement Text)) := by
  obtain ⟨hi, rfl⟩ := List.getElem?_eq_some_iff.mp h
  have hperm := (List.getElem_cons_eraseIdx_perm hi).map fun c => c.2
  rw [List.map_cons] at hperm
  rw [Multiset.cons_coe]
  exact Multiset.coe_eq_coe.mpr hperm.symm

theorem Sound.away (h : desk.Sound) {c : Text × Statement Text} (hc : c ∈ desk.out) :
    c.2 ∉ desk.cache.cached := by
  have hnodup := statements_nodup h.places
  rw [statements, Multiset.nodup_add, Multiset.nodup_add] at hnodup
  intro hmem
  exact Multiset.disjoint_left.mp hnodup.1.2.2 hmem (List.mem_map_of_mem hc)

theorem Sound.release (h : desk.Sound) (i : ℕ) :
    ∃ next, desk.releaseStatement i = some next ∧ next.Sound := by
  rw [releaseStatement]
  cases hi : desk.out[i]? with
  | none => exact ⟨desk, rfl, h⟩
  | some c =>
    obtain ⟨key, stmt⟩ := c
    have hc := List.mem_of_getElem? hi
    obtain ⟨cache, gone, hrelease, hsettles⟩ := release_settles h.cache h.order key stmt
    simp only [hrelease, Option.map_some]
    refine ⟨_, rfl, ?_⟩
    have hsame : desk.statements = ({ desk with
        cache := cache
        out := desk.out.eraseIdx i
        destroyed := gone ++ desk.destroyed
        returned := stmt :: desk.returned } : Desk Text).statements := by
      simp only [statements, out_eraseIdx hi, ← Multiset.coe_add]
      have hplaces := hsettles.places
      calc desk.cache.cached + (stmt ::ₘ _) + (desk.destroyed : Multiset (Statement Text))
        _ = (stmt ::ₘ desk.cache.cached) +
            ((desk.out.eraseIdx i).map fun c => c.2 : List (Statement Text)) + desk.destroyed := by
          rw [Multiset.add_cons, Multiset.cons_add, Multiset.cons_add, Multiset.cons_add]
        _ = _ := by
          rw [← hplaces]
          abel
    have hcounters := hsettles.counters
    constructor
    · exact hsettles.wellFormed h.cache (h.keys _ hc)
    · exact fun c hc => h.keys c (List.mem_of_mem_eraseIdx hc)
    · rw [← hsame, h.places, hcounters.2]
    · exact hsettles.ordered h.cache h.order (h.away hc)
    · intro s hs
      rw [← hsame]
      rcases List.mem_cons.mp hs with rfl | hs
      · have hout : s ∈ (desk.out.map fun c => c.2) := List.mem_map_of_mem hc
        exact Multiset.mem_add.mpr (.inl (Multiset.mem_add.mpr (.inr hout)))
      · exact h.stays s hs
    · rw [hcounters.1, hcounters.2]
      exact h.counts

theorem Sound.abandon (h : desk.Sound) (i : ℕ) : (desk.abandon i).Sound := by
  rw [Desk.abandon]
  cases hi : desk.out[i]? with
  | none => exact h
  | some c =>
    have hsame : desk.statements = ({ desk with
        out := desk.out.eraseIdx i
        destroyed := c.2 :: desk.destroyed } : Desk Text).statements := by
      simp only [statements, out_eraseIdx hi, ← Multiset.cons_coe, Multiset.add_cons,
        Multiset.cons_add]
    exact ⟨h.cache, fun c hc => h.keys c (List.mem_of_mem_eraseIdx hc), hsame ▸ h.places, h.order,
      hsame ▸ h.stays, h.counts⟩

theorem Sound.clear (h : desk.Sound) : desk.clearStatementCache.Sound := by
  have hsame : desk.statements = desk.clearStatementCache.statements := by
    simp only [statements, clearStatementCache, StatementCache.clear, cached, ← Multiset.coe_add,
      AList.empty_entries, List.map_nil, Multiset.coe_nil, zero_add]
    abel
  refine ⟨h.cache.clear, h.keys, ?_, ?_, ?_, h.counts⟩
  · rw [← hsame]
    exact h.places
  · exact ⟨fun s hs => absurd hs (Multiset.notMem_zero s), .nil⟩
  · rw [← hsame]
    exact h.stays

theorem Sound.step (h : desk.Sound) (use : Use Text) :
    ∃ next, desk.step use = some next ∧ next.Sound := by
  cases use with
  | acquire sql works => exact ⟨_, rfl, h.acquire works⟩
  | release i => exact h.release i
  | abandon i => exact ⟨_, rfl, h.abandon i⟩
  | clear => exact ⟨_, rfl, h.clear⟩

end

/-- What is promised of the cache of a connection. -/
structure Keeps (desk : Desk Text) : Prop where
  duplicate_free : desk.cache.lru.Nodup
  permutation : desk.cache.lru.Perm desk.cache.entries.keys
  bounded : desk.cache.entries.entries.length ≤ desk.cache.capacity
  prepared_from : ∀ text stmt, desk.cache.entries.lookup text = some stmt → stmt.text = text
  /-- No statement is in two places, so none is cached while it is checked out, and none is kept and
  destroyed. -/
  one_place : (desk.statements.map Statement.handle).Nodup
  returned : ∀ s ∈ desk.returned, s ∈ desk.statements
  counts : desk.cache.hits + desk.cache.misses = desk.acquires
  /-- Whatever is returned next settles. -/
  settles : ∀ c ∈ desk.out, ∃ next gone, desk.cache.release c.1 c.2 = some (next, gone) ∧
    next.cached + gone = c.2 ::ₘ desk.cache.cached ∧
    desk.cache.Settles desk.returned c.1 c.2 next gone

theorem Sound.keeps {desk : Desk Text} (h : desk.Sound) : desk.Keeps where
  duplicate_free := h.cache.lru.nodup_iff.mpr desk.cache.entries.keys_nodup
  permutation := h.cache.lru
  bounded := h.cache.size
  prepared_from := h.cache.texts
  one_place := by
    rw [h.places]
    exact Multiset.nodup_range _
  returned := h.stays
  counts := h.counts
  settles c _ := by
    obtain ⟨next, gone, hrelease, hsettles⟩ := release_settles h.cache h.order c.1 c.2
    exact ⟨next, gone, hrelease, hsettles.places, hsettles⟩

/-- Whatever the users of a connection do with its statements, its cache keeps its promises. -/
theorem statement_cache_sound (uses : List (Use Text)) :
    ∃ desk, run uses = some desk ∧ desk.Keeps := by
  have hrun (desk : Desk Text) (h : desk.Sound) :
      ∃ last, uses.foldlM step desk = some last ∧ last.Sound := by
    induction uses generalizing desk with
    | nil => exact ⟨desk, rfl, h⟩
    | cons use uses ih =>
      obtain ⟨next, hnext, hsound⟩ := h.step use
      obtain ⟨last, hlast, hdone⟩ := ih next hsound
      refine ⟨last, ?_, hdone⟩
      rw [List.foldlM_cons, hnext]
      exact hlast
  obtain ⟨desk, hdesk, hsound⟩ := hrun {} sound_start
  exact ⟨desk, hdesk, hsound.keeps⟩

end Desk

end Uniorm.Connection
