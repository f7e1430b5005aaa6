import Uniorm.Foundation.Lists
import Uniorm.Orm.Write

/-! # What a sweep sends

Both channels send the same parameter sets, one for each row, in chunks; they differ in how a chunk
reaches the statement. A sweep that throws has sent and done some of the sets, from the first one on.
-/
namespace Uniorm.Orm

open Foundation Sql Builder Action
open Connection (Link Work)

universe u v w

def runAll (l : Link) (work : List Work) : Link := work.foldl Link.runStatement l

/-- The work of `count` writes, the first of which has the number `start`. -/
def leases (start count : ℕ) : List Work := (List.range' start count).map Work.lease

theorem leases_add (start n k : ℕ) :
    leases start (n + k) = leases start n ++ leases (start + n) k := by
  rw [leases, leases, leases, ← List.map_append, List.range'_append_1]

theorem runAll_append (l : Link) (xs ys : List Work) : runAll l (xs ++ ys) = runAll (runAll l xs) ys :=
  List.foldl_append

theorem runAll_manual {l : Link} (hmode : l.session.mode = false) (work : List Work) :
    runAll l work = l.setPending (l.session.pending ++ work) := by
  induction work generalizing l with
  | nil =>
    rw [List.append_nil]
    rfl
  | cons x work ih =>
    have hstep : l.runStatement x = l.setPending (l.session.pending ++ [x]) := by
      rw [Link.runStatement, hmode]
      rfl
    have hrest := ih (l := l.setPending (l.session.pending ++ [x])) hmode
    rw [runAll, List.foldl_cons, hstep]
    refine hrest.trans ?_
    simp [Link.setPending]

section
variable {V : Type v} {E : Type w} (b : Backend V E)

theorem serve_eq (c : Conn V) (sets : List (Params V)) :
    c.serve sets = { c with
      link := runAll c.link (leases c.writes.length sets.length)
      writes := c.writes ++ sets.map (Write.mk c.stmt.sql) } := by
  induction sets generalizing c with
  | nil => simp [Conn.serve, runAll, leases]
  | cons x sets ih =>
    have hstep : c.serve (x :: sets) = (c.serveOne x).serve sets := rfl
    rw [hstep, ih, Conn.serveOne]
    simp [runAll, leases, List.range'_succ]

/-- What has been executed since `c₀`: given parameter sets, in chunks of at most `batch`. -/
def Sends (sql : Text) (batch : ℕ) (c₀ c : Conn V) (sets : List (Params V)) : Prop :=
  ∃ chunks : List (List (Params V)), c.sent = c₀.sent ++ chunks.map (Sent.mk sql · true) ∧
    chunks.flatten = sets ∧ ∀ chunk ∈ chunks, chunk ≠ [] ∧ chunk.length ≤ batch

/-- What a sweep has done to a connection `c₀` when it has sent some parameter sets and the server has
done some of them. -/
structure Progress (sql : Text) (batch : ℕ) (c₀ c : Conn V) (handed done : List (Params V)) : Prop where
  sent : Sends sql batch c₀ c handed
  writes : c.writes = c₀.writes ++ done.map (Write.mk sql)
  link : c.link = runAll c₀.link (leases c₀.writes.length done.length)
  scope : c.scope = c₀.scope
  txn : c.txn = c₀.txn

variable {b} {sql : Text} {batch : ℕ} {c₀ c : Conn V} {taken handed done all sets : List (Params V)}

theorem Progress.start (c₀ : Conn V) : Progress sql batch c₀ c₀ [] [] :=
  ⟨⟨[], by simp⟩, by simp, by simp [leases, runAll], rfl, rfl⟩

theorem Progress.frame (h : Progress sql batch c₀ c handed done) (calls : ℕ) (stmt : Statement V) :
    Progress sql batch c₀ { c with calls := calls, stmt := stmt } handed done :=
  ⟨h.sent, h.writes, h.link, h.scope, h.txn⟩

/-- An `execute` hands over its sets; the server does some of them. -/
theorem Progress.execute (h : Progress sql batch c₀ c handed done) (hsql : c.stmt.sql = sql)
    (hintact : c.stmt.intact = true) (hsets : sets ≠ []) (hlen : sets.length ≤ batch) (calls : ℕ)
    (part : List (Params V)) :
    Progress sql batch c₀ (Conn.serve { c with
      calls := calls, sent := c.sent ++ [⟨c.stmt.sql, sets, c.stmt.intact⟩] } part)
      (handed ++ sets) (done ++ part) := by
  obtain ⟨chunks, hsent, hflat, hchunks⟩ := h.sent
  rw [serve_eq]
  refine ⟨⟨chunks ++ [sets], ?_, ?_, ?_⟩, ?_, ?_, h.scope, h.txn⟩
  · simp [hsent, hsql, hintact]
  · simp [hflat]
  · intro chunk hchunk
    rcases List.mem_append.mp hchunk with hold | hnew
    · exact hchunks chunk hold
    · obtain rfl := List.mem_singleton.mp hnew
      exact ⟨hsets, hlen⟩
  · simp [h.writes, hsql]
  · simp [h.writes, h.link, leases_add, runAll_append]

/-- A sweep over `all` that did not come to its end. -/
def Broken (sql : Text) (batch : ℕ) (c₀ : Conn V) (all : List (Params V)) (c : Conn V) : Prop :=
  ∃ handed done, handed <+: all ∧ done <+: all ∧ Progress sql batch c₀ c handed done

theorem Progress.broken (h : Progress sql batch c₀ c taken taken) (hall : taken <+: all) :
    Broken sql batch c₀ all c := ⟨taken, taken, hall, hall, h⟩

/-- A sweep that has sent `taken`, with what is known of its statement. -/
def At (sql : Text) (batch : ℕ) (c₀ : Conn V) (taken : List (Params V)) (K : Statement V → Prop)
    (c : Conn V) : Prop :=
  Progress sql batch c₀ c taken taken ∧ K c.stmt

variable {K K' : Statement V → Prop} {f : Statement V → Statement V}

theorem onStatement_triple (hall : taken <+: all) (hf : ∀ s, K s → K' (f s)) :
    Triple (At sql batch c₀ taken K) (Conn.onStatement b f) (fun _ => At sql batch c₀ taken K')
      fun _ => Broken sql batch c₀ all := by
  rintro c ⟨hc, hK⟩
  unfold Conn.onStatement Conn.call
  cases b.fails c.calls with
  | some e => exact ⟨nofun, fun _ _ => (hc.frame _ _).broken hall⟩
  | none => exact ⟨fun _ _ => ⟨hc.frame _ _, hf _ hK⟩, nofun⟩

/-- The sets of a statement are sent, and the rows they affect are known. -/
theorem execute_triple (hall : taken ++ sets <+: all) (hsets : sets ≠ [])
    (hlen : sets.length ≤ batch) (hK : ∀ s done, K s → K { s with done := done }) :
    Triple (At sql batch c₀ taken fun s => s.sql = sql ∧ s.sets = sets ∧ s.intact = true ∧ K s)
      (Conn.execute b)
      (fun _ => At sql batch c₀ (taken ++ sets) fun s => K s ∧
        s.done = b.counts (c₀.writes ++ taken.map (Write.mk sql)) (sets.map (Write.mk sql)))
      fun _ => Broken sql batch c₀ all := by
  rintro c ⟨hc, hsql, hstmt, hintact, hKc⟩
  unfold Conn.execute
  rw [hstmt]
  cases hfail : b.fails c.calls with
  | some e =>
    refine ⟨nofun, fun _ _ => ?_⟩
    refine ⟨taken ++ sets, taken ++ sets.take (b.partway c.calls), hall, ?_,
      hc.execute hsql hintact hsets hlen _ _⟩
    exact ((List.prefix_append_right_inj taken).mpr (List.take_prefix _ sets)).trans hall
  | none =>
    refine ⟨fun _ _ => ⟨?_, hK _ _ hKc, ?_⟩, nofun⟩
    · exact (hc.execute hsql hintact hsets hlen (c.calls + 1) sets).frame _ _
    · rw [← hc.writes, ← hsql]

def Exact (b : Backend V E) (sql : Text) (batch : ℕ) : RowTally → Prop
  | .boundRows => ∀ history values, b.affected history ⟨sql, values⟩ = 1
  | .affectedRows => ∀ n cs, cs ≠ [] → cs.length ≤ batch → b.report n cs = cs.sum

/-- The rows affected by parameter sets sent from `c₀` on. -/
def rowsAffected (b : Backend V E) (sql : Text) (history : List (Write V)) (sets : List (Params V)) :
    ℕ := (b.counts history (sets.map (Write.mk sql))).sum

theorem rowsAffected_append (history : List (Write V)) (xs ys : List (Params V)) :
    rowsAffected b sql history (xs ++ ys) =
      rowsAffected b sql history xs + rowsAffected b sql (history ++ xs.map (Write.mk sql)) ys := by
  rw [rowsAffected, List.map_append, b.counts_append, List.sum_append]
  rfl

theorem rowsAffected_of_one (hone : ∀ history values, b.affected history ⟨sql, values⟩ = 1)
    (history : List (Write V)) (xs : List (Params V)) :
    rowsAffected b sql history xs = xs.length := by
  induction xs generalizing history with
  | nil => rfl
  | cons x xs ih =>
    have hrest := ih (history ++ [⟨sql, x⟩])
    rw [rowsAffected] at hrest
    rw [rowsAffected, List.map_cons, Backend.counts, List.sum_cons, hone, hrest, List.length_cons]
    omega

def Tallied (b : Backend V E) (sql : Text) (batch : ℕ) (tally : RowTally) (c₀ : Conn V)
    (K : Statement V → Prop) (taken : List (Params V)) (total : ℕ) (c : Conn V) : Prop :=
  At sql batch c₀ taken K c ∧
    (Exact b sql batch tally → total = rowsAffected b sql c₀.writes taken)

variable {tally : RowTally} {total : ℕ}

/-- A chunk that the statement holds is sent and counted. -/
theorem chunk_triple (hall : taken ++ sets <+: all) (hsets : sets ≠ [])
    (hlen : sets.length ≤ batch) (hK : ∀ s done, K s → K { s with done := done })
    (htotal : Exact b sql batch tally → total = rowsAffected b sql c₀.writes taken) :
    Triple (At sql batch c₀ taken fun s => s.sql = sql ∧ s.sets = sets ∧ s.intact = true ∧ K s)
      (do Conn.execute b; EntityMeta.tallied b tally sets.length)
      (fun n => Tallied b sql batch tally c₀ K (taken ++ sets) (total + n))
      fun _ => Broken sql batch c₀ all := by
  apply (execute_triple hall hsets hlen hK).bind
  intro _
  cases tally with
  | boundRows =>
    apply Triple.pure
    rintro c ⟨hc, hKc, -⟩
    refine ⟨⟨hc, hKc⟩, fun hexact => ?_⟩
    rw [rowsAffected_append, ← htotal hexact, rowsAffected_of_one hexact]
  | affectedRows =>
    apply (onStatement_triple hall fun s hs => hs).bind
    intro _
    apply Triple.read
    rintro c ⟨hc, hKc, hdone⟩
    refine ⟨⟨hc, hKc⟩, fun hexact => ?_⟩
    have hcount := hexact c.calls c.stmt.done (by simpa [hdone, ← List.length_pos_iff] using hsets)
      (by simpa [hdone] using hlen)
    rw [rowsAffected_append, ← htotal hexact, hcount, hdone]
    rfl

variable {R : Type u} {m : EntityMeta R V} {cols : List m.Index} {rows : List R} {batchSize : ℕ+}

def tuples (m : EntityMeta R V) (cols : List m.Index) (rows : List R) : List (Params V) :=
  rows.map (m.extractRow cols)

theorem tuples_chunk (start count : ℕ) :
    tuples m cols (EntityMeta.chunkRows rows start count) =
      ((tuples m cols rows).drop start).take count := by
  simp [tuples, EntityMeta.chunkRows, List.map_take, List.map_drop]

@[simp] theorem length_tuples (m : EntityMeta R V) (cols : List m.Index) (rows : List R) :
    (tuples m cols rows).length = rows.length := List.length_map _

/-- The chunk of a sweep at a place before the end. -/
theorem chunk_spec {l : List (Params V)} {start : ℕ} (hstart : start < l.length) (step : ℕ+) :
    ((l.drop start).take (min (step : ℕ) (l.length - start))).length =
        min (step : ℕ) (l.length - start) ∧
      (l.drop start).take (min (step : ℕ) (l.length - start)) ≠ [] ∧
      l.take start ++ (l.drop start).take (min (step : ℕ) (l.length - start)) =
        l.take (start + min (step : ℕ) (l.length - start)) := by
  have hlen : ((l.drop start).take (min (step : ℕ) (l.length - start))).length =
      min (step : ℕ) (l.length - start) := by
    rw [List.length_take, List.length_drop]
    omega
  refine ⟨hlen, ?_, List.take_add.symm⟩
  have hstep := step.pos
  rw [← List.length_pos_iff, hlen]
  omega

/-- What a rowwise channel needs of the two calls that give a chunk to the statement. -/
def Binds (bind : List (Params V) → ℕ → Conn.Run V E Unit) : Prop :=
  ∀ (sql : Text) (batch : ℕ) (c₀ : Conn V) (taken all sets : List (Params V)), taken <+: all →
    Triple (At sql batch c₀ taken fun s => s.sql = sql) (bind sets sets.length)
      (fun _ => At sql batch c₀ taken fun s =>
        s.sql = sql ∧ s.sets = sets ∧ s.intact = true ∧ s.sql = sql)
      fun _ => Broken sql batch c₀ all

/-- The calls may come in either order. -/
theorem binds_size_first (b : Backend V E) :
    Binds fun batch count => (do Conn.setParamsetSize b count; Conn.bindBatchParams b batch) := by
  intro sql batch c₀ taken all sets hall
  apply Triple.bind (Q := fun _ => At sql batch c₀ taken fun s =>
    s.sql = sql ∧ s.paramset = sets.length)
  · exact onStatement_triple hall fun s hs => ⟨hs, rfl⟩
  · intro _
    apply onStatement_triple hall
    rintro s ⟨hsql, hsize⟩
    exact ⟨hsql, by simp [Statement.sets, hsize], rfl, hsql⟩

theorem binds_batch_first (b : Backend V E) :
    Binds fun batch count => (do Conn.bindBatchParams b batch; Conn.setParamsetSize b count) := by
  intro sql batch c₀ taken all sets hall
  apply Triple.bind (Q := fun _ => At sql batch c₀ taken fun s =>
    s.sql = sql ∧ s.bound = .batch sets)
  · exact onStatement_triple hall fun s hs => ⟨hs, rfl⟩
  · intro _
    apply onStatement_triple hall
    rintro s ⟨hsql, hbound⟩
    exact ⟨hsql, by simp [Statement.sets, hbound], by simp [Statement.intact, hbound], hsql⟩

/-- A sweep begins with a fresh statement. -/
theorem acquireStatement_triple {K : Statement V → Prop} (hK : K ⟨sql, 1, .nothing, [], []⟩) :
    Triple (fun c => c = c₀) (Conn.acquireStatement b sql) (fun _ => At sql batch c₀ [] K)
      fun _ => Broken sql batch c₀ all := by
  rintro c rfl
  apply onStatement_triple (K := fun _ => True) List.nil_prefix fun _ _ => hK
  exact ⟨Progress.start c, trivial⟩

theorem rowwise_chunk (b : Backend V E) (sql : Text) (c₀ : Conn V) (total : ℕ)
    {bind : List (Params V) → ℕ → Conn.Run V E Unit} (hbind : Binds bind) (hall : taken ++ sets <+: all)
    (hsets : sets ≠ []) (hlen : sets.length ≤ batch) :
    Triple (Tallied b sql batch .affectedRows c₀ (fun s => s.sql = sql) taken total)
      (do
        Conn.encode b
        bind sets sets.length
        Conn.execute b
        Conn.affectedRows b)
      (fun n => Tallied b sql batch .affectedRows c₀ (fun s => s.sql = sql) (taken ++ sets) (total + n))
      fun _ => Broken sql batch c₀ all := by
  rintro c ⟨hc, htotal⟩
  have hbefore : taken <+: all := (List.prefix_append taken sets).trans hall
  have hchunk := chunk_triple (K := fun s => s.sql = sql) hall hsets hlen (fun s done hs => hs) htotal
  have hrun := ((onStatement_triple (b := b) (f := id) hbefore fun s hs => hs).bind fun _ =>
    (hbind sql batch c₀ taken all sets hbefore).bind fun _ => hchunk)
  exact hrun c hc

/-- A rowwise sweep sends the set of every row. -/
theorem rowwise_triple (b : Backend V E) (m : EntityMeta R V) (sql : Text) (cols : List m.Index)
    (rows : List R) (batchSize : ℕ+) (c₀ : Conn V)
    {bind : List (Params V) → ℕ → Conn.Run V E Unit} (hbind : Binds bind) :
    Triple (fun c => c = c₀) (m.rowwise b sql cols rows batchSize bind)
      (fun n => Tallied b sql batchSize .affectedRows c₀ (fun s => s.sql = sql)
        (tuples m cols rows) n)
      fun _ => Broken sql batchSize c₀ (tuples m cols rows) := by
  apply (acquireStatement_triple (K := fun s => s.sql = sql) rfl).bind
  intro _
  refine Triple.mono (Triple.sweep (I := fun start total => Tallied b sql batchSize .affectedRows c₀
    (fun s => s.sql = sql) ((tuples m cols rows).take start) total) ?_ 0 0) ?_ ?_ fun _ _ h => h
  · intro start total hstart
    rw [← length_tuples m cols rows] at hstart ⊢
    obtain ⟨hlen, hsets, hnext⟩ := chunk_spec hstart batchSize
    have hprefix := List.take_prefix (start + min (batchSize : ℕ) ((tuples m cols rows).length - start))
      (tuples m cols rows)
    rw [← hnext] at hprefix ⊢
    have hbody := rowwise_chunk b sql c₀ total hbind hprefix hsets (hlen.trans_le (Nat.min_le_left _ _))
    rw [hlen] at hbody
    rw [← tuples_chunk] at hbody ⊢
    exact hbody
  · rintro c hc
    exact ⟨hc, fun _ => rfl⟩
  · intro n c hc
    rwa [← length_tuples m cols rows, List.take_length] at hc

section
variable (col : Column R V)

theorem writeToParamBuffer_value (entity : R) (row : ℕ) (buffer : Buffer V) :
    ((writeToParamBuffer col entity row buffer).slots row).value = col.member entity := by
  unfold writeToParamBuffer
  cases hmember : col.member entity with
  | none => simp [Slot.value]
  | some value => simp [Slot.value]

theorem writeToParamBuffer_slots {row r : ℕ} (hr : r ≠ row) (entity : R) (buffer : Buffer V) :
    (writeToParamBuffer col entity row buffer).slots r = buffer.slots r := by
  unfold writeToParamBuffer
  split <;> simp [hr]

/-- The places before the first one that is written keep what they hold. -/
theorem fillColumn_before {row r : ℕ} (hr : r < row) (rows : List R) (buffer : Buffer V) :
    (fillColumn col row rows buffer).slots r = buffer.slots r := by
  induction rows generalizing row buffer with
  | nil => rfl
  | cons entity rows ih =>
    rw [fillColumn, ih (Nat.lt_succ_of_lt hr), writeToParamBuffer_slots col (Nat.ne_of_lt hr)]

theorem fillColumn_value {rows : List R} {r : ℕ} (hr : r < rows.length) (row : ℕ)
    (buffer : Buffer V) :
    ((fillColumn col row rows buffer).slots (row + r)).value = col.member rows[r] := by
  induction rows generalizing row r buffer with
  | nil => exact absurd hr (Nat.not_lt_zero r)
  | cons entity rows ih =>
    rw [fillColumn]
    cases r with
    | zero =>
      rw [Nat.add_zero row, fillColumn_before col (Nat.lt_add_one row), writeToParamBuffer_value]
      rfl
    | succ r =>
      have hrest := ih (Nat.lt_of_succ_lt_succ hr) (row + 1) (writeToParamBuffer col entity row buffer)
      rw [Nat.add_right_comm] at hrest
      exact hrest

/-- A buffer as it was asked for, with every value in its place. -/
structure Allotted (elementSize count : ℕ) (buffer : Buffer V) : Prop where
  elementSize : buffer.elementSize = elementSize
  count : buffer.count = count
  intact : buffer.overrun = false

/-- Values that fit stay in their places. -/
theorem fillColumn_allotted {elementSize count row : ℕ} {rows : List R} {buffer : Buffer V}
    (hfits : ∀ entity ∈ rows, ∀ value, col.member entity = some value →
      ∀ buffer r, Allotted elementSize count buffer → r < count → lands col value r buffer = true)
    (hroom : row + rows.length ≤ count) (h : Allotted elementSize count buffer) :
    Allotted elementSize count (fillColumn col row rows buffer) := by
  induction rows generalizing row buffer with
  | nil => exact h
  | cons entity rows ih =>
    have hrow : row < count := by
      rw [List.length_cons] at hroom
      omega
    have hwrite : Allotted elementSize count (writeToParamBuffer col entity row buffer) := by
      unfold writeToParamBuffer
      cases hmember : col.member entity with
      | none => exact ⟨h.elementSize, h.count, h.intact⟩
      | some value =>
        have hlands := hfits entity List.mem_cons_self value hmember buffer row h hrow
        exact ⟨h.elementSize, h.count, by simp [h.intact, hlands]⟩
    rw [fillColumn]
    apply ih (fun e he => hfits e (List.mem_cons_of_mem _ he)) _ hwrite
    rw [List.length_cons] at hroom
    omega

end

/-- The size of a buffer's places: every value of the sweep fits into one. -/
theorem lands_of_allotted {i : m.Index} {entity : R} (hentity : entity ∈ rows) {value : V}
    (hvalue : (m.col i).member entity = some value) {count r : ℕ} {buffer : Buffer V}
    (h : Allotted (elementSizeFor (m.col i).bufferType (m.maxSize rows i)) count buffer)
    (hr : r < count) : lands (m.col i) value r buffer = true := by
  have hscan : (m.col i).bufferType.isVar = true → (m.col i).size value ≤ m.maxSize rows i := by
    intro hvar
    rw [EntityMeta.maxSize, if_pos hvar]
    have hsize := (le_foldl_max (fun row => (m.col i).getStringSize row) rows 1).2 entity hentity
    rwa [Column.getStringSize, hvalue] at hsize
  have hsize := h.elementSize
  unfold lands
  rw [h.count]
  cases htype : (m.col i).bufferType with
  | chars =>
    rw [htype] at hscan hsize
    have hfits := hscan rfl
    simp only [elementSizeFor] at hsize
    simp only [hr, decide_true, Bool.true_and, decide_eq_true_eq]
    omega
  | bytes =>
    rw [htype] at hscan hsize
    have hfits := hscan rfl
    simp only [elementSizeFor] at hsize
    simp only [hr, decide_true, Bool.true_and, decide_eq_true_eq]
    omega
  | _ =>
    rw [htype] at hsize
    simp [hr, hsize, elementSizeFor, BufferType.width]

def Prepared (m : EntityMeta R V) (cols : List m.Index) (rows : List R) (count : ℕ)
    (writer : List (Buffer V)) : Prop :=
  List.Forall₂ (fun i => Allotted (elementSizeFor (m.col i).bufferType (m.maxSize rows i)) count)
    cols writer

variable {count : ℕ} {writer : List (Buffer V)} {chunk : List R}

theorem Prepared.intact (h : Prepared m cols rows count writer) :
    (writer.all fun buffer => !buffer.overrun) = true := by
  induction h with
  | nil => rfl
  | cons hfirst _ ih => simp [hfirst.intact, ih]

theorem Prepared.fill (h : Prepared m cols rows count writer) (hchunk : chunk ⊆ rows)
    (hlen : chunk.length ≤ count) : Prepared m cols rows count (m.fillWriter cols chunk writer) := by
  induction h with
  | nil => exact .nil
  | cons hfirst _ ih =>
    refine .cons (fillColumn_allotted _ ?_ ?_ hfirst) ih
    · intro entity hentity value hvalue buffer r hbuffer hr
      exact lands_of_allotted (hchunk hentity) hvalue hbuffer hr
    · rwa [Nat.zero_add]

/-- A row of the buffers is the tuple of its entity. -/
theorem Prepared.row (h : Prepared m cols rows count writer) {r : ℕ} (hr : r < chunk.length) :
    ((m.fillWriter cols chunk writer).map fun buffer => (buffer.slots r).value) =
      m.extractRow cols chunk[r] := by
  induction h with
  | nil => rfl
  | @cons i buffer cols writer _ _ ih =>
    have hvalue := fillColumn_value (m.col i) hr 0 buffer
    rw [Nat.zero_add] at hvalue
    have hfill : m.fillWriter (i :: cols) chunk (buffer :: writer) =
        fillColumn (m.col i) 0 chunk buffer :: m.fillWriter cols chunk writer := rfl
    have hextract : m.extractRow (i :: cols) chunk[r] =
        (m.col i).member chunk[r] :: m.extractRow cols chunk[r] := rfl
    rw [hfill, List.map_cons, hvalue, ih, hextract]

/-- Read row by row, filled buffers give the tuples of the chunk. -/
theorem Prepared.sets_eq (h : Prepared m cols rows count writer) (s : Statement V)
    (hbound : s.bound = .writer) (hsize : s.paramset = chunk.length)
    (hwriter : s.writer = m.fillWriter cols chunk writer) : s.sets = tuples m cols chunk := by
  rw [Statement.sets, hbound, hsize, hwriter]
  apply List.ext_getElem
  · simp
  · intro r hr _
    have hlt : r < chunk.length := by simpa using hr
    rw [List.getElem_map, List.getElem_range, h.row hlt]
    simp [tuples]

theorem addColumns_triple (pre : List m.Index) (hall : taken <+: all) :
    Triple (At sql batch c₀ taken fun s => s.sql = sql ∧ Prepared m pre rows count s.writer)
      (m.addColumns b rows count cols)
      (fun _ => At sql batch c₀ taken fun s =>
        s.sql = sql ∧ Prepared m (pre ++ cols) rows count s.writer)
      fun _ => Broken sql batch c₀ all := by
  induction cols generalizing pre with
  | nil =>
    rw [List.append_nil]
    exact Triple.pure fun c hc => hc
  | cons i cols ih =>
    apply Triple.bind (Q := fun _ => At sql batch c₀ taken fun s =>
      s.sql = sql ∧ Prepared m (pre ++ [i]) rows count s.writer)
    · apply onStatement_triple hall
      rintro s ⟨hsql, hprepared⟩
      exact ⟨hsql, List.rel_append hprepared (.cons ⟨rfl, rfl, rfl⟩ .nil)⟩
    · intro _
      have hrest := ih (pre ++ [i])
      rwa [List.append_assoc, List.singleton_append] at hrest

structure Loaded (m : EntityMeta R V) (cols : List m.Index) (rows : List R) (count : ℕ) (sql : Text)
    (chunk : List R) (s : Statement V) : Prop where
  sql : s.sql = sql
  bound : s.bound = .writer
  prepared : Prepared m cols rows count s.writer
  filled : ∃ writer, Prepared m cols rows count writer ∧ s.writer = m.fillWriter cols chunk writer

/-- A chunk in the buffers is sent and counted, once the number of parameter sets is right. -/
theorem loaded_triple (b : Backend V E) (sql : Text) (tally : RowTally) (c₀ : Conn V) (total : ℕ)
    (rows : List R) (count batch : ℕ)
    (hall : taken ++ tuples m cols chunk <+: all) (hchunk : chunk ≠ []) (hlen : chunk.length ≤ batch)
    (htotal : Exact b sql batch tally → total = rowsAffected b sql c₀.writes taken) :
    Triple (At sql batch c₀ taken fun s =>
        Loaded m cols rows count sql chunk s ∧ s.paramset = chunk.length)
      (do Conn.execute b; EntityMeta.tallied b tally chunk.length)
      (fun n => Tallied b sql batch tally c₀ (fun s => s.sql = sql ∧ s.bound = .writer ∧
        Prepared m cols rows count s.writer ∧ s.paramset = chunk.length)
        (taken ++ tuples m cols chunk) (total + n))
      fun _ => Broken sql batch c₀ all := by
  have hsets : tuples m cols chunk ≠ [] := by simpa [tuples] using hchunk
  have hrun := chunk_triple (K := fun s => s.sql = sql ∧ s.bound = .writer ∧
    Prepared m cols rows count s.writer ∧ s.paramset = chunk.length) hall hsets
    (by rwa [length_tuples]) (fun s done hs => hs) htotal
  rw [length_tuples] at hrun
  refine hrun.mono ?_ (fun _ _ h => h) fun _ _ h => h
  rintro c ⟨hc, hloaded, hsize⟩
  obtain ⟨writer, hwriter, hfilled⟩ := hloaded.filled
  refine ⟨hc, hloaded.sql, hwriter.sets_eq c.stmt hloaded.bound hsize hfilled, ?_,
    hloaded.sql, hloaded.bound, hloaded.prepared, hsize⟩
  rw [Statement.intact, hloaded.bound]
  exact hloaded.prepared.intact

structure Between (m : EntityMeta R V) (cols : List m.Index) (rows : List R) (count : ℕ) (sql : Text)
    (start : ℕ) (s : Statement V) : Prop where
  sql : s.sql = sql
  bound : s.bound = .writer
  prepared : Prepared m cols rows count s.writer
  size : start < rows.length → s.paramset = count

theorem resizeParamset_triple (hall : taken <+: all) {count' : ℕ} :
    Triple (At sql batch c₀ taken fun s => Loaded m cols rows count sql chunk s ∧ s.paramset = count)
      (EntityMeta.resizeParamset b count count')
      (fun _ => At sql batch c₀ taken fun s =>
        Loaded m cols rows count sql chunk s ∧ s.paramset = count')
      fun _ => Broken sql batch c₀ all := by
  unfold EntityMeta.resizeParamset
  split
  · apply onStatement_triple hall
    rintro s ⟨hloaded, -⟩
    exact ⟨⟨hloaded.sql, hloaded.bound, hloaded.prepared, hloaded.filled⟩, rfl⟩
  · rename_i hsame
    apply Triple.pure
    rintro c ⟨hc, hloaded, hsize⟩
    exact ⟨hc, hloaded, hsize.trans (not_not.mp hsame).symm⟩

theorem columnar_chunk (b : Backend V E) (sql : Text) (tally : RowTally) (c₀ : Conn V) (total : ℕ)
    (m : EntityMeta R V) (cols : List m.Index) (rows : List R) (batchSize : ℕ+) {start : ℕ}
    (hstart : start < rows.length) :
    Triple (Tallied b sql batchSize tally c₀
        (Between m cols rows (min (batchSize : ℕ) rows.length) sql start)
        ((tuples m cols rows).take start) total)
      (do
        m.fill b cols (EntityMeta.chunkRows rows start (min (batchSize : ℕ) (rows.length - start)))
        EntityMeta.resizeParamset b (min (batchSize : ℕ) rows.length)
          (min (batchSize : ℕ) (rows.length - start))
        Conn.execute b
        EntityMeta.tallied b tally (min (batchSize : ℕ) (rows.length - start)))
      (fun n => Tallied b sql batchSize tally c₀
        (Between m cols rows (min (batchSize : ℕ) rows.length) sql
          (start + min (batchSize : ℕ) (rows.length - start)))
        ((tuples m cols rows).take (start + min (batchSize : ℕ) (rows.length - start))) (total + n))
      fun _ => Broken sql batchSize c₀ (tuples m cols rows) := by
  obtain ⟨count, hcount⟩ : ∃ count, min (batchSize : ℕ) (rows.length - start) = count := ⟨_, rfl⟩
  have hstep := batchSize.pos
  -- Only the last chunk is shorter than the first one.
  have hfull : start + count < rows.length → count = min (batchSize : ℕ) rows.length := by omega
  have hlen : (EntityMeta.chunkRows rows start count).length = count := by
    rw [EntityMeta.chunkRows, List.length_take, List.length_drop]
    omega
  have hne : EntityMeta.chunkRows rows start count ≠ [] := by
    rw [← List.length_pos_iff, hlen]
    omega
  have hsub : EntityMeta.chunkRows rows start count ⊆ rows :=
    List.Subset.trans (List.take_subset _ _) (List.drop_subset _ _)
  have hnext : (tuples m cols rows).take start ++
      tuples m cols (EntityMeta.chunkRows rows start count) =
      (tuples m cols rows).take (start + count) := by
    rw [tuples_chunk, List.take_add]
  have hall : (tuples m cols rows).take start ++
      tuples m cols (EntityMeta.chunkRows rows start count) <+: tuples m cols rows := by
    rw [hnext]
    exact List.take_prefix _ _
  have hbefore := (List.prefix_append _ _).trans hall
  rintro c ⟨hc, htotal⟩
  have hsend := loaded_triple b sql tally c₀ total rows (min (batchSize : ℕ) rows.length) batchSize
    hall hne (by omega) htotal
  rw [hcount, ← hnext]
  rw [hlen] at hsend
  have hfill : Triple (At sql batchSize c₀ ((tuples m cols rows).take start)
        (Between m cols rows (min (batchSize : ℕ) rows.length) sql start))
      (m.fill b cols (EntityMeta.chunkRows rows start count))
      (fun _ => At sql batchSize c₀ ((tuples m cols rows).take start) fun s =>
        Loaded m cols rows (min (batchSize : ℕ) rows.length) sql
          (EntityMeta.chunkRows rows start count) s ∧ s.paramset = min (batchSize : ℕ) rows.length)
      fun _ => Broken sql batchSize c₀ (tuples m cols rows) := by
    apply onStatement_triple hbefore
    intro s hs
    exact ⟨⟨hs.sql, hs.bound, hs.prepared.fill hsub (by omega), ⟨s.writer, hs.prepared, rfl⟩⟩,
      hs.size hstart⟩
  have hrun := (hfill.bind fun _ => (resizeParamset_triple (b := b) hbefore).bind fun _ => hsend) c hc
  refine ⟨fun n hn => ?_, hrun.2⟩
  obtain ⟨⟨hprogress, hsql, hbound, hprepared, hsize⟩, hcounted⟩ := hrun.1 n hn
  exact ⟨⟨hprogress, hsql, hbound, hprepared, fun hmore => hsize.trans (hfull hmore)⟩, hcounted⟩

/-- The first chunk is in the buffers when they are bound. -/
theorem bindWriter_triple {first : ℕ} :
    Triple (fun c => c = c₀) (m.bindWriter b sql cols rows first)
      (fun _ => At sql batch c₀ [] fun s =>
        Loaded m cols rows first sql (EntityMeta.chunkRows rows 0 first) s ∧ s.paramset = first)
      fun _ => Broken sql batch c₀ all := by
  have hchunk : (EntityMeta.chunkRows rows 0 first).length ≤ first := List.length_take_le _ _
  have hsub : EntityMeta.chunkRows rows 0 first ⊆ rows := List.take_subset _ _
  apply (acquireStatement_triple (K := fun s => s.sql = sql) rfl).bind
  intro _
  apply (onStatement_triple List.nil_prefix fun s hs => hs).bind
  intro _
  apply Triple.bind (Q := fun _ => At sql batch c₀ [] fun s =>
    s.sql = sql ∧ Prepared m [] rows first s.writer)
  · exact onStatement_triple List.nil_prefix fun s hs => ⟨hs, .nil⟩
  intro _
  apply (addColumns_triple [] List.nil_prefix).bind
  intro _
  rw [List.nil_append]
  apply Triple.bind (Q := fun _ => At sql batch c₀ [] fun s => s.sql = sql ∧
    Prepared m cols rows first s.writer ∧ ∃ writer, Prepared m cols rows first writer ∧
      s.writer = m.fillWriter cols (EntityMeta.chunkRows rows 0 first) writer)
  · apply onStatement_triple List.nil_prefix
    rintro s ⟨hsql, hprepared⟩
    exact ⟨hsql, hprepared.fill hsub hchunk, s.writer, hprepared, rfl⟩
  intro _
  apply Triple.bind (Q := fun _ => At sql batch c₀ []
    (Loaded m cols rows first sql (EntityMeta.chunkRows rows 0 first)))
  · apply onStatement_triple List.nil_prefix
    rintro s ⟨hsql, hprepared, hfilled⟩
    exact ⟨hsql, rfl, hprepared, hfilled⟩
  intro _
  apply onStatement_triple List.nil_prefix
  intro s hs
  exact ⟨⟨hs.sql, hs.bound, hs.prepared, hs.filled⟩, rfl⟩

/-- A columnar sweep sends the set of every row. -/
theorem columnarBatchWrite_triple (b : Backend V E) (m : EntityMeta R V) (sql : Text)
    (cols : List m.Index) {rows : List R} (batchSize : ℕ+) (tally : RowTally) (c₀ : Conn V)
    (hrows : rows ≠ []) :
    Triple (fun c => c = c₀) (m.columnarBatchWrite b sql cols rows batchSize tally)
      (fun n => Tallied b sql batchSize tally c₀ (fun _ => True) (tuples m cols rows) n)
      fun _ => Broken sql batchSize c₀ (tuples m cols rows) := by
  have hlen : rows.length ≠ 0 := by simpa using hrows
  have hstep := batchSize.pos
  unfold EntityMeta.columnarBatchWrite
  rw [if_neg hlen]
  obtain ⟨first, hfirst⟩ : ∃ first, min (batchSize : ℕ) rows.length = first := ⟨_, rfl⟩
  have hchunk : (EntityMeta.chunkRows rows 0 first).length = first := by
    rw [EntityMeta.chunkRows, List.length_take, List.length_drop]
    omega
  have hne : EntityMeta.chunkRows rows 0 first ≠ [] := by
    rw [← List.length_pos_iff, hchunk]
    omega
  have htaken : [] ++ tuples m cols (EntityMeta.chunkRows rows 0 first) =
      (tuples m cols rows).take first := by
    rw [List.nil_append, tuples_chunk, List.drop_zero]
  have hall : [] ++ tuples m cols (EntityMeta.chunkRows rows 0 first) <+: tuples m cols rows := by
    rw [htaken]
    exact List.take_prefix _ _
  have hsend := loaded_triple b sql tally c₀ 0 rows first batchSize hall hne (by omega) fun _ => rfl
  rw [hchunk, htaken] at hsend
  rw [hfirst]
  apply bindWriter_triple.bind
  intro _
  rw [← bind_assoc]
  apply hsend.bind
  intro written
  refine Triple.mono (Triple.sweep (I := fun start total => Tallied b sql batchSize tally c₀
    (Between m cols rows first sql start) ((tuples m cols rows).take start) total) ?_ batchSize
    written) ?_ ?_ fun _ _ h => h
  · intro start total hstart
    have hbody := columnar_chunk b sql tally c₀ total m cols rows batchSize hstart
    rw [hfirst] at hbody
    exact hbody
  · rintro c ⟨⟨hprogress, hsql, hbound, hprepared, hsize⟩, hcounted⟩
    rw [hfirst]
    rw [Nat.zero_add] at hcounted
    exact ⟨⟨hprogress, hsql, hbound, hprepared, fun _ => hsize⟩, hcounted⟩
  · rintro n c ⟨⟨hprogress, -⟩, hcounted⟩
    rw [← length_tuples m cols rows, List.take_length] at hprogress hcounted
    exact ⟨⟨hprogress, trivial⟩, hcounted⟩

end

end Uniorm.Orm
