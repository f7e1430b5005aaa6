import Uniorm.Orm.Batch

/-! # The number a batch returns

The number a batch returns is the number of rows it affected, for every backend that honours the
capability contract, in all channels but one: an INSERT whose rows go as value tuples adds up what the
backend reports, although the chunks are as long as the batch size allows.
-/
namespace Uniorm.Orm

open Foundation Sql Builder Action
open Connection (Sound clean sound_clean)

universe u v w

section
variable {R : Type u} {V : Type v} {E : Type w} {b : Backend V E} {m : EntityMeta R V}
  {rows : List R} {c₀ : Conn V}

section
variable (hquiet : ∀ n, b.fails n = none)
include hquiet

theorem returns_onStatement (f : Statement V → Statement V) : Returns (Conn.onStatement b f) := by
  intro c
  refine ⟨(), ?_⟩
  rw [Conn.onStatement, Conn.call, hquiet]

theorem returns_execute : Returns (Conn.execute b) := by
  intro c
  refine ⟨(), ?_⟩
  rw [Conn.execute, hquiet]

theorem returns_affectedRows : Returns (Conn.affectedRows b) :=
  (returns_onStatement hquiet id).bind fun _ => Returns.read _

theorem returns_tallied (tally : RowTally) (count : ℕ) : Returns (EntityMeta.tallied b tally count) := by
  cases tally with
  | boundRows => exact Returns.pure count
  | affectedRows => exact returns_affectedRows hquiet

theorem returns_rowwise (sql : Text) (cols : List m.Index) (chunk : ℕ+)
    {bind : List (Params V) → ℕ → Conn.Run V E Unit} (hbind : ∀ sets n, Returns (bind sets n)) :
    Returns (m.rowwise b sql cols rows chunk bind) := by
  apply (returns_onStatement hquiet _).bind
  intro _
  apply Returns.sweep
  intro start n
  exact (returns_onStatement hquiet _).bind fun _ => (hbind _ _).bind fun _ =>
    (returns_execute hquiet).bind fun _ => returns_affectedRows hquiet

theorem returns_addColumns (cols : List m.Index) (count : ℕ) :
    Returns (m.addColumns b rows count cols) := by
  induction cols with
  | nil => exact Returns.pure ()
  | cons i cols ih => exact (returns_onStatement hquiet _).bind fun _ => ih

theorem returns_columnarBatchWrite (sql : Text) (cols : List m.Index) (chunk : ℕ+) (tally : RowTally) :
    Returns (m.columnarBatchWrite b sql cols rows chunk tally) := by
  have hstep := fun f => returns_onStatement hquiet f
  unfold EntityMeta.columnarBatchWrite
  split
  · exact Returns.pure 0
  have hwriter : Returns (m.bindWriter b sql cols rows (min (chunk : ℕ) rows.length)) :=
    (hstep _).bind fun _ => (hstep _).bind fun _ => (hstep _).bind fun _ =>
      (returns_addColumns hquiet cols _).bind fun _ => (hstep _).bind fun _ =>
        (hstep _).bind fun _ => hstep _
  refine hwriter.bind fun _ => (returns_execute hquiet).bind fun _ =>
    (returns_tallied hquiet tally _).bind fun written => ?_
  apply Returns.sweep
  intro start n
  refine (hstep _).bind fun _ => Returns.bind ?_ fun _ => (returns_execute hquiet).bind fun _ =>
    returns_tallied hquiet tally n
  unfold EntityMeta.resizeParamset
  split
  · exact hstep _
  · exact Returns.pure ()

theorem returns_inBatch {body : Conn.Run V E ℕ} (hbody : Returns body) :
    Returns (EntityMeta.inBatch b body) := by
  have hcommit : Returns (Conn.commitBatch b) := by
    intro c
    refine ⟨(), ?_⟩
    rw [Conn.commitBatch]
    split
    · rfl
    · rw [hquiet]
  refine (Returns.update _ ()).bind fun _ => ?_
  exact (hbody.bind fun n => hcommit.bind fun _ => Returns.pure n).closing _

theorem returns_channel {statement : Except (WriteError E) Text} {sql : Text}
    (hsql : statement = .ok sql) (cols : List m.Index) (chunk : ℕ+) (tally : RowTally)
    {bind : List (Params V) → ℕ → Conn.Run V E Unit} (hbind : ∀ sets n, Returns (bind sets n)) :
    Returns (EntityMeta.inBatch b <|
      if b.caps.columnarBatch then do
        let sql ← Action.lift statement
        m.columnarBatchWrite b sql cols rows chunk tally
      else do
        let sql ← Action.lift statement
        m.rowwise b sql cols rows chunk bind) := by
  apply returns_inBatch hquiet
  split
  · exact Returns.lift_bind hsql (returns_columnarBatchWrite hquiet sql cols chunk tally)
  · exact Returns.lift_bind hsql (returns_rowwise hquiet sql cols chunk hbind)

theorem returns_writeBatch {op : Op} {cols : List m.Index} {sql : Text}
    (hcols : (m.boundColumns op : Except (WriteError E) _) = .ok cols)
    (hsql : (m.statementOf b.dialect op : Except (WriteError E) _) = .ok sql) (batchSize : ℕ) :
    Returns (m.writeBatch b op rows batchSize) := by
  have hbind : ∀ f g, Returns (Conn.onStatement b f >>= fun _ => Conn.onStatement b g) :=
    fun f g => (returns_onStatement hquiet f).bind fun _ => returns_onStatement hquiet g
  cases op with
  | insert =>
    change Returns (m.insertImpl b rows batchSize)
    unfold EntityMeta.insertImpl
    split
    · exact Returns.pure 0
    · exact returns_channel hquiet hsql m.allColumns _ .boundRows fun _ _ => hbind _ _
  | update whereFields =>
    obtain ⟨whereCols, hwhere, hset⟩ := bind_eq_ok.mp hcols
    obtain ⟨_, hwhere', hupdate⟩ := bind_eq_ok.mp hsql
    obtain rfl := Except.ok.inj (hwhere.symm.trans hwhere')
    have hne : m.setColumnsOf whereCols ≠ [] := by
      intro hnil
      rw [if_pos hnil] at hset
      cases hset
    change Returns (m.updateBatchImpl b rows whereFields batchSize)
    unfold EntityMeta.updateBatchImpl
    split
    · exact Returns.pure 0
    · apply Returns.lift_bind hwhere
      simp only [hne, if_false]
      exact returns_channel hquiet hupdate _ _ .affectedRows fun _ _ => hbind _ _
  | remove whereFields =>
    obtain ⟨whereCols, hwhere, hdelete⟩ := bind_eq_ok.mp hsql
    change Returns (m.deleteBatchImpl b rows whereFields batchSize)
    unfold EntityMeta.deleteBatchImpl
    split
    · exact Returns.pure 0
    · apply Returns.lift_bind hwhere
      exact returns_channel hquiet hdelete _ _ .affectedRows fun _ _ => hbind _ _

end

/-- The rows that a write of a vector affects after the writes before it: the number of rows
inserted, or the total over the rows. Neither the capabilities nor the batch size are read. -/
def rowsAffectedBy (b : Backend V E) (m : EntityMeta R V) (op : Op) (rows : List R)
    (history : List (Write V)) : ℕ :=
  match (m.boundColumns op : Except (WriteError E) _), m.statementOf (E := E) b.dialect op with
  | .ok cols, .ok sql => rowsAffected b sql history (tuples m cols rows)
  | _, _ => 0

theorem rowsAffectedBy_nil (op : Op) (history : List (Write V)) :
    rowsAffectedBy b m op [] history = 0 := by
  unfold rowsAffectedBy
  split <;> rfl

def InsertsOne (b : Backend V E) (m : EntityMeta R V) : Prop :=
  ∀ sql, m.buildInsertSql (E := E) b.dialect = .ok sql →
    ∀ history values, b.affected history ⟨sql, values⟩ = 1

theorem rowsAffectedBy_insert (hinsert : InsertsOne b m) {sql : Text}
    (hsql : m.buildInsertSql (E := E) b.dialect = .ok sql) (history : List (Write V)) :
    rowsAffectedBy b m .insert rows history = rows.length := by
  have hone := rowsAffected_of_one (hinsert sql hsql) history (tuples m m.allColumns rows)
  rw [length_tuples] at hone
  unfold rowsAffectedBy EntityMeta.statementOf
  rw [hsql]
  exact hone

/-- A write whose chunks are counted as they should be returns the total. -/
theorem writeBatch_count (hsound : Sound c₀.link.session) {op : Op} {batchSize : ℕ}
    (hexact : ∀ sql, m.statementOf (E := E) b.dialect op = .ok sql →
      Exact b sql (EntityMeta.chunkSize b.caps op batchSize) (EntityMeta.tallyOf b.caps op))
    {n : ℕ} (hn : (m.writeBatch b op rows batchSize c₀).1 = .ok n) :
    n = rowsAffectedBy b m op rows c₀.writes := by
  by_cases hrows : rows = []
  · subst hrows
    rw [writeBatch_nil] at hn
    rw [rowsAffectedBy_nil, ← Except.ok.inj hn]
  · obtain ⟨cols, sql, hcols, hsql, hdone⟩ :=
      (writeBatch_triple hsound hrows op batchSize c₀ rfl).1 n hn
    rw [rowsAffectedBy, hcols, hsql]
    exact hdone.count (hexact sql hsql)

/-- Chunks of one set are counted right by every backend. -/
theorem exact_of_single (h : b.Honours) (sql : Text) {batch : ℕ} (hbatch : batch ≤ 1) :
    Exact b sql batch .affectedRows := by
  intro n cs hcs hlen
  obtain ⟨c, rfl⟩ : ∃ c, cs = [c] := by
    rw [← List.length_eq_one_iff]
    have hpos := List.length_pos_iff.mpr hcs
    omega
  rw [h.one, List.sum_singleton]

/-- Where the count of a chunk is the count of its rows. -/
theorem exact_of_honours (h : b.Honours) (hinsert : InsertsOne b m) {op : Op} {batchSize : ℕ}
    (hok : op ≠ .insert ∨ b.caps.columnarBatch = true ∨ b.caps.arrayRowcountTotals = true ∨
      EntityMeta.chunkOf batchSize = 1) {sql : Text}
    (hsql : m.statementOf (E := E) b.dialect op = .ok sql) :
    Exact b sql (EntityMeta.chunkSize b.caps op batchSize) (EntityMeta.tallyOf b.caps op) := by
  have hmatched : ∀ op', op' ≠ .insert → Exact b sql
      (EntityMeta.chunkSize b.caps op' batchSize) (EntityMeta.tallyOf b.caps op') := by
    intro op' hop
    obtain ⟨hchunk, htally⟩ : EntityMeta.chunkSize b.caps op' batchSize =
        EntityMeta.writeChunk b.caps (EntityMeta.chunkOf batchSize) ∧
        EntityMeta.tallyOf b.caps op' = .affectedRows := by
      cases op' with
      | insert => exact absurd rfl hop
      | update _ => exact ⟨rfl, rfl⟩
      | remove _ => exact ⟨rfl, rfl⟩
    rw [hchunk, htally]
    by_cases htotals : b.caps.arrayRowcountTotals = true
    · exact fun n cs _ _ => h.totals htotals n cs
    · rw [EntityMeta.writeChunk, if_neg htotals]
      exact exact_of_single h sql (le_refl 1)
  by_cases hop : op = .insert
  · subst hop
    by_cases hcolumnar : b.caps.columnarBatch = true
    · rw [EntityMeta.tallyOf, if_pos hcolumnar]
      exact hinsert sql hsql
    rw [EntityMeta.tallyOf, if_neg hcolumnar]
    rcases hok with hop | hcol | htotals | hchunk
    · exact absurd rfl hop
    · exact absurd hcol hcolumnar
    · exact fun n cs _ _ => h.totals htotals n cs
    · rw [EntityMeta.chunkSize, hchunk]
      exact exact_of_single h sql (le_refl 1)
  · exact hmatched op hop

theorem rowwise_singleton (sql : Text) (cols : List m.Index) (row : R) (chunk : ℕ+)
    (bind : List (Params V) → ℕ → Conn.Run V E Unit) :
    m.rowwise b sql cols [row] chunk bind = m.rowwise b sql cols [row] 1 bind := by
  unfold EntityMeta.rowwise
  rw [List.length_singleton, Action.sweep_of_le _ Nat.one_pos chunk.pos,
    Action.sweep_of_le _ Nat.one_pos (le_refl 1)]

theorem insertImpl_rowwise (hcolumnar : b.caps.columnarBatch = false) (hrows : rows ≠ [])
    (batchSize : ℕ) :
    m.insertImpl b rows batchSize =
      EntityMeta.inBatch b (m.insertRowwise b rows (EntityMeta.chunkOf batchSize)) := by
  rw [EntityMeta.insertImpl, if_neg (by simpa using hrows)]
  simp only [hcolumnar, Bool.false_eq_true, if_false]

theorem insertImpl_singleton (hcolumnar : b.caps.columnarBatch = false) (row : R) (batchSize : ℕ) :
    m.insertImpl b [row] batchSize = m.insertImpl b [row] 1 := by
  have hinsert : ∀ chunk : ℕ+, m.insertRowwise b [row] chunk = m.insertRowwise b [row] 1 := by
    intro chunk
    unfold EntityMeta.insertRowwise
    simp only [rowwise_singleton _ _ _ chunk]
  rw [insertImpl_rowwise hcolumnar (List.cons_ne_nil _ _),
    insertImpl_rowwise hcolumnar (List.cons_ne_nil _ _), hinsert (EntityMeta.chunkOf batchSize)]
  rfl

/-- A rowwise INSERT of at most one row is one chunk of one set. -/
theorem insert_few {batchSize : ℕ} (hcolumnar : b.caps.columnarBatch = false) (hhonours : b.Honours)
    (hinsert : InsertsOne b m) (hlen : rows.length < 2) (hsound : Sound c₀.link.session) {n : ℕ}
    (hn : (m.writeBatch b .insert rows batchSize c₀).1 = .ok n) :
    n = rowsAffectedBy b m .insert rows c₀.writes := by
  have hone : ∀ rows : List R, (m.writeBatch b .insert rows 1 c₀).1 = .ok n →
      n = rowsAffectedBy b m .insert rows c₀.writes := fun rows hn =>
    writeBatch_count hsound (fun sql hsql =>
      exact_of_honours hhonours hinsert (.inr (.inr (.inr rfl))) hsql) hn
  match rows, hlen with
  | [], _ => exact hone [] (by rwa [writeBatch_nil] at hn ⊢)
  | [row], _ =>
    apply hone [row]
    rw [← hn]
    exact congrArg (fun run => (run c₀).1) (insertImpl_singleton hcolumnar row batchSize).symm

/-- A batch returns what its sweep returns. -/
theorem inBatch_value {P : ℕ → Prop} {body : Conn.Run V E ℕ}
    (hbody : Triple (fun _ => True) body (fun n _ => P n) fun _ _ => True) :
    Triple (fun _ => True) (EntityMeta.inBatch b body) (fun n _ => P n) fun _ _ => True := by
  apply Triple.bind (Q := fun _ _ => True)
  · exact Triple.update fun _ _ => trivial
  intro _
  apply Triple.closing
  apply hbody.bind
  intro n
  apply Triple.bind (Q := fun _ _ => P n)
  · exact fun c hP => ⟨fun _ _ => hP, fun _ _ => trivial⟩
  · exact fun _ => Triple.pure fun _ hP => hP

/-- What a call does to the statement, whatever it does to the rest. -/
theorem statement_triple (K L : Statement V → Prop) {f : Statement V → Statement V}
    (hf : ∀ s, K s → L (f s)) :
    Triple (fun c => K c.stmt) (Conn.onStatement b f) (fun _ c => L c.stmt) fun _ _ => True := by
  intro c hK
  unfold Conn.onStatement Conn.call
  cases b.fails c.calls with
  | some e => exact ⟨nofun, fun _ _ => trivial⟩
  | none => exact ⟨fun _ _ => hf _ hK, nofun⟩

variable [Inhabited V]

theorem quiet_honours (d : Dialect) (caps : Capabilities) : (quiet V E d caps).Honours := by
  refine ⟨fun h n cs => if_pos h, fun n cs => ?_⟩
  by_cases htotals : caps.arrayRowcountTotals = true
  · exact .inl (if_pos htotals)
  · have hreport : (quiet V E d caps).report n cs = cs.headD 0 := if_neg htotals
    rw [hreport]
    cases cs with
    | nil => exact .inl rfl
    | cons c cs => exact .inr List.mem_cons_self

theorem quiet_report {d : Dialect} {caps : Capabilities} (htotals : caps.arrayRowcountTotals = false)
    (k : ℕ) (history : List (Write V)) {xs : List (Write V)} (hxs : xs ≠ []) :
    (quiet V E d caps).report k ((quiet V E d caps).counts history xs) = 1 := by
  have hreport : ∀ cs, (quiet V E d caps).report k cs = cs.headD 0 := by
    intro cs
    exact if_neg (by simp [htotals])
  cases xs with
  | nil => exact absurd rfl hxs
  | cons x xs =>
    rw [hreport]
    rfl

/-- A chunk of a rowwise INSERT adds one to the total, however long it is. -/
theorem quiet_chunk (d : Dialect) {caps : Capabilities} (htotals : caps.arrayRowcountTotals = false)
    (sets : List (Params V)) (hsets : sets ≠ []) :
    Triple (fun _ => True)
      (do
        Conn.encode (quiet V E d caps)
        (do
          Conn.bindBatchParams (quiet V E d caps) sets
          Conn.setParamsetSize (quiet V E d caps) sets.length)
        Conn.execute (quiet V E d caps)
        Conn.affectedRows (quiet V E d caps))
      (fun n _ => n = 1) fun _ _ => True := by
  refine (statement_triple (fun _ => True) (fun _ => True) fun _ _ => trivial).bind
    fun _ => ?_
  have hbind : Triple (fun _ => True)
      (do
        Conn.bindBatchParams (quiet V E d caps) sets
        Conn.setParamsetSize (quiet V E d caps) sets.length)
      (fun _ c => c.stmt.sets = sets) fun _ _ => True := by
    apply Triple.bind (Q := fun _ c => c.stmt.bound = .batch sets)
    · exact statement_triple (fun _ => True) (fun s => s.bound = .batch sets) fun s _ => rfl
    · intro _
      apply statement_triple (fun s => s.bound = .batch sets) fun s => s.sets = sets
      intro s hs
      simp [Statement.sets, hs]
  refine hbind.bind fun _ => ?_
  let K : Statement V → Prop := fun s => ∃ history sql, s.done =
    (quiet V E d caps).counts history (sets.map (Write.mk sql))
  apply Triple.bind (Q := fun _ c => K c.stmt)
  · intro c hc
    refine ⟨fun _ _ => ⟨c.writes, c.stmt.sql, ?_⟩, fun _ _ => trivial⟩
    rw [← hc]
    rfl
  · intro _
    refine (statement_triple K K fun s hs => hs).bind fun _ => ?_
    apply Triple.read
    rintro c ⟨history, sql, hdone⟩
    rw [hdone]
    exact quiet_report htotals c.calls history (by simpa using hsets)

/-- So the total falls short of the number of rows once a chunk has two of them. -/
theorem quiet_insertRowwise {d : Dialect} {caps : Capabilities}
    (htotals : caps.arrayRowcountTotals = false) {chunk : ℕ+} (hchunk : 2 ≤ (chunk : ℕ))
    (hrows : 2 ≤ rows.length) :
    Triple (fun _ => True) (m.insertRowwise (quiet V E d caps) rows chunk)
      (fun n _ => n < rows.length) fun _ _ => True := by
  apply Triple.bind (Q := fun _ _ => True)
  · exact Triple.lift (fun _ _ _ _ => trivial) fun _ _ _ _ => trivial
  intro sql
  refine (statement_triple (fun _ => True) (fun _ => True) fun _ _ => trivial).bind
    fun _ => ?_
  refine Triple.mono (Triple.sweep (I := fun start total _ =>
    if start = 0 then total = 0 else total < start) ?_ 0 0) (fun _ _ => ?_) ?_ fun _ _ h => h
  · intro start total hstart c htotal
    obtain ⟨count, hcount⟩ : ∃ count, min (chunk : ℕ) (rows.length - start) = count := ⟨_, rfl⟩
    have hsets : ((EntityMeta.chunkRows rows start count).map (m.extractRow m.allColumns)).length =
        count := by
      rw [List.length_map, EntityMeta.chunkRows, List.length_take, List.length_drop]
      omega
    have hbody := quiet_chunk (E := E) d htotals
      ((EntityMeta.chunkRows rows start count).map (m.extractRow m.allColumns))
      (by rw [← List.length_pos_iff, hsets]; omega) c trivial
    rw [hsets] at hbody
    rw [hcount]
    refine ⟨fun n hn => ?_, fun _ _ => trivial⟩
    obtain rfl := hbody.1 n hn
    split at htotal <;> simp only [Nat.add_eq_zero_iff] <;> split <;> omega
  · simp
  · intro n c hn
    rwa [if_neg (by omega)] at hn

/-- For every backend with given capabilities that honours the contract, a write of a vector returns
the number of rows it affects, and it does return unless something throws. -/
structure CountsRows (E : Type w) (m : EntityMeta R V) (d : Dialect) (caps : Capabilities) (op : Op)
    (rows : List R) (batchSize : ℕ) : Prop where
  exact : ∀ b : Backend V E, b.caps = caps → b.dialect = d → b.Honours → InsertsOne b m →
    ∀ c, Sound c.link.session → ∀ n, (m.writeBatch b op rows batchSize c).1 = .ok n →
      n = rowsAffectedBy b m op rows c.writes
  returns : ∀ b : Backend V E, b.caps = caps → b.dialect = d → (∀ k, b.fails k = none) →
    ∀ cols sql, (m.boundColumns op : Except (WriteError E) _) = .ok cols →
      (m.statementOf d op : Except (WriteError E) _) = .ok sql →
      Returns (m.writeBatch b op rows batchSize)

/-- The rowwise INSERT with chunks of several sets on a backend without totals. -/
def AddsReports (E : Type w) (m : EntityMeta R V) (d : Dialect) (caps : Capabilities) (op : Op)
    (rows : List R) (batchSize : ℕ) : Prop :=
  op = .insert ∧ caps.columnarBatch = false ∧ caps.arrayRowcountTotals = false ∧
    2 ≤ (EntityMeta.chunkOf batchSize : ℕ) ∧ 2 ≤ rows.length ∧
    ∃ sql, (m.buildInsertSql d : Except (WriteError E) _) = .ok sql

variable {d : Dialect} {caps : Capabilities} {op : Op} {batchSize : ℕ}

theorem not_countsRows (h : AddsReports E m d caps op rows batchSize) :
    ¬ CountsRows E m d caps op rows batchSize := by
  obtain ⟨rfl, hcolumnar, htotals, hchunk, hlen, sql, hsql⟩ := h
  intro hcounts
  have hrows : rows ≠ [] := by
    rintro rfl
    exact absurd hlen (by simp)
  let c : Conn V := ⟨⟨clean, []⟩, [], 0, ⟨[], 1, .nothing, [], []⟩, [], none, []⟩
  have hone : InsertsOne (quiet V E d caps) m := fun _ _ _ _ => rfl
  obtain ⟨n, hn⟩ := hcounts.returns (quiet V E d caps) rfl rfl (fun _ => rfl) _ sql rfl hsql c
  have hcount := hcounts.exact (quiet V E d caps) rfl rfl (quiet_honours d caps) hone c sound_clean n hn
  rw [rowsAffectedBy_insert hone hsql] at hcount
  have hshort := inBatch_value (b := quiet V E d caps) (quiet_insertRowwise (m := m) (d := d) htotals
    hchunk hlen) c trivial
  rw [← insertImpl_rowwise hcolumnar hrows] at hshort
  exact absurd hcount (Nat.ne_of_lt (hshort.1 n hn))

/-- The number a batch returns does not depend on the capabilities or the batch size, except for the
rowwise INSERT on a backend that reports the count of one set. -/
theorem batch_counts_iff :
    CountsRows E m d caps op rows batchSize ↔ ¬ AddsReports E m d caps op rows batchSize := by
  refine ⟨fun h hadds => not_countsRows hadds h, fun hadds => ⟨?_, ?_⟩⟩
  · rintro b rfl rfl hhonours hinsert c hsound n hn
    by_cases hok : op ≠ .insert ∨ b.caps.columnarBatch = true ∨ b.caps.arrayRowcountTotals = true ∨
        EntityMeta.chunkOf batchSize = 1
    · exact writeBatch_count hsound (fun sql => exact_of_honours hhonours hinsert hok) hn
    simp only [not_or, not_not, Bool.not_eq_true] at hok
    obtain ⟨rfl, hcolumnar, htotals, hchunk⟩ := hok
    by_cases hlen : rows.length < 2
    · exact insert_few hcolumnar hhonours hinsert hlen hsound hn
    have hrows : rows ≠ [] := by
      rintro rfl
      exact hlen (by simp)
    obtain ⟨cols, sql, -, hsql, -⟩ := (writeBatch_triple hsound hrows .insert batchSize c rfl).1 n hn
    have htwo : 2 ≤ (EntityMeta.chunkOf batchSize : ℕ) := by
      have hpos := (EntityMeta.chunkOf batchSize).pos
      have hne : (EntityMeta.chunkOf batchSize : ℕ) ≠ 1 := fun h => hchunk (PNat.coe_eq_one_iff.mp h)
      omega
    exact absurd ⟨rfl, hcolumnar, htotals, htwo, Nat.le_of_not_lt hlen, sql, hsql⟩ hadds
  · rintro b rfl rfl hquiet cols sql hcols hsql
    exact returns_writeBatch hquiet hcols hsql batchSize

end

/-- Two rows in one chunk, on a backend that reports the count of one set. -/
theorem two_rows_counted_as_one :
    ¬ CountsRows Unit keyed {} ⟨false, false⟩ .insert [(1, 2), (3, 4)] 2 :=
  not_countsRows ⟨rfl, rfl, rfl, le_refl 2, le_refl 2, _, rfl⟩

end Uniorm.Orm
