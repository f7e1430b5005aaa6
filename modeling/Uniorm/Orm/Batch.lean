import Uniorm.Orm.Sweep

/-! # Batches in their transaction

A batch on a connection that commits by itself runs in a transaction of its own: it is committed
as a whole, or the destructor of the transaction rolls it back. In manual mode the batch joins the
transaction of the caller.
-/
namespace Uniorm.Orm

open Foundation Sql Builder Action
open Connection (Link Sound Transaction Work andThen backendSetAutocommit beginTransaction clean done
  serverCall setAutocommit sound_clean)

universe u v w

/-- The three writes, with the fields that a row is matched by. -/
inductive Op where
  | insert
  | update (whereFields : Option (List Text))
  | remove (whereFields : Option (List Text))
  deriving DecidableEq

namespace EntityMeta
variable {R : Type u} {V : Type v} {E : Type w} (b : Backend V E) (m : EntityMeta R V)

/-- `orm::insert`, `orm::update` and `orm::remove` of a vector. -/
def writeBatch (op : Op) (rows : List R) (batchSize : ℕ) : Conn.Run V E ℕ :=
  match op with
  | .insert => m.insertImpl b rows batchSize
  | .update whereFields => m.updateBatchImpl b rows whereFields batchSize
  | .remove whereFields => m.deleteBatchImpl b rows whereFields batchSize

def boundColumns : Op → Except (WriteError E) (List m.Index)
  | .insert => .ok m.allColumns
  | .update whereFields => do
    let whereCols ← m.resolveWhere whereFields "update"
    if m.setColumnsOf whereCols = [] then .error .noColumnsToSet
    else .ok (m.setColumnsOf whereCols ++ whereCols)
  | .remove whereFields => m.resolveWhere whereFields "remove"

def statementOf (d : Dialect) : Op → Except (WriteError E) Text
  | .insert => m.buildInsertSql d
  | .update whereFields => do
    let whereCols ← m.resolveWhere whereFields "update"
    m.updateStatement d (m.setColumnsOf whereCols) whereCols
  | .remove whereFields => do
    let whereCols ← m.resolveWhere whereFields "remove"
    m.deleteStatement d whereCols

def chunkSize (caps : Capabilities) (op : Op) (batchSize : ℕ) : ℕ+ :=
  match op with
  | .insert => chunkOf batchSize
  | _ => writeChunk caps (chunkOf batchSize)

def tallyOf (caps : Capabilities) : Op → RowTally
  | .insert => if caps.columnarBatch then .boundRows else .affectedRows
  | _ => .affectedRows

end EntityMeta

section
variable {R : Type u} {V : Type v} {E : Type w} {b : Backend V E} {m : EntityMeta R V}
  {cols : List m.Index} {rows : List R} {chunk : ℕ+} {c₀ : Conn V}

/-- A sweep over `sets` that threw, perhaps before there was a statement. -/
def Stopped (statement : Except (WriteError E) Text) (batch : ℕ) (c₀ : Conn V)
    (sets : List (Params V)) (c : Conn V) : Prop :=
  c = c₀ ∨ ∃ sql, statement = .ok sql ∧ Broken sql batch c₀ sets c

theorem channel_triple (b : Backend V E) (m : EntityMeta R V) (cols : List m.Index) (chunk : ℕ+)
    (statement : Except (WriteError E) Text) (tally : RowTally) (c₀ : Conn V)
    {bind : List (Params V) → ℕ → Conn.Run V E Unit} (hbind : Binds bind) (hrows : rows ≠ []) :
    Triple (fun c => c = c₀)
      (if b.caps.columnarBatch then do
        let sql ← Action.lift statement
        m.columnarBatchWrite b sql cols rows chunk tally
      else do
        let sql ← Action.lift statement
        m.rowwise b sql cols rows chunk bind)
      (fun n c => ∃ sql, statement = .ok sql ∧
        Tallied b sql chunk (if b.caps.columnarBatch then tally else .affectedRows) c₀ (fun _ => True)
          (tuples m cols rows) n c)
      fun _ => Stopped statement chunk c₀ (tuples m cols rows) := by
  have hlift : Triple (fun c => c = c₀) (Action.lift statement)
      (fun sql c => statement = .ok sql ∧ c = c₀)
      fun _ => Stopped statement chunk c₀ (tuples m cols rows) :=
    Triple.lift (fun c sql hc hsql => ⟨hsql, hc⟩) fun c _ hc _ => .inl hc
  by_cases hcolumnar : b.caps.columnarBatch = true
  · simp only [hcolumnar, if_true]
    apply hlift.bind
    rintro sql c ⟨hsql, hc⟩
    have hrun := columnarBatchWrite_triple b m sql cols chunk tally c₀ hrows c hc
    exact ⟨fun n hn => ⟨sql, hsql, hrun.1 n hn⟩, fun e he => .inr ⟨sql, hsql, hrun.2 e he⟩⟩
  · simp only [hcolumnar]
    apply hlift.bind
    rintro sql c ⟨hsql, hc⟩
    have hrun := rowwise_triple b m sql cols rows chunk c₀ hbind c hc
    refine ⟨fun n hn => ⟨sql, hsql, ?_⟩, fun e he => .inr ⟨sql, hsql, hrun.2 e he⟩⟩
    obtain ⟨⟨hprogress, -⟩, hcounted⟩ := hrun.1 n hn
    exact ⟨⟨hprogress, trivial⟩, hcounted⟩

/-- What a batch that returned has done. -/
structure Completed (b : Backend V E) (sql : Text) (batch : ℕ) (tally : RowTally) (c₀ : Conn V)
    (sets : List (Params V)) (n : ℕ) (c : Conn V) : Prop where
  sent : Sends sql batch c₀ c sets
  writes : c.writes = c₀.writes ++ sets.map (Write.mk sql)
  count : Exact b sql batch tally → n = rowsAffected b sql c₀.writes sets
  committed : c₀.autocommit = true →
    c.link = ⟨clean, c₀.link.durable ++ leases c₀.writes.length sets.length⟩
  joined : c₀.autocommit = false →
    c.scope = c₀.scope ∧ c.link = runAll c₀.link (leases c₀.writes.length sets.length)

/-- What a batch that threw has done. -/
structure Undone (statement : Except (WriteError E) Text) (batch : ℕ) (c₀ : Conn V)
    (sets : List (Params V)) (c : Conn V) : Prop where
  sent : ∃ sql handed, (handed = [] ∨ statement = .ok sql) ∧ handed <+: sets ∧
    Sends sql batch c₀ c handed
  dropped : c₀.autocommit = true → c.link = ⟨clean, c₀.link.durable⟩
  joined : c₀.autocommit = false → c.scope = c₀.scope ∧
    ∃ n, c.link = runAll c₀.link (leases c₀.writes.length n)

theorem Undone.before {statement : Except (WriteError E) Text} {batch : ℕ}
    {sets : List (Params V)} (hsound : Sound c₀.link.session) :
    Undone statement batch c₀ sets c₀ := by
  refine ⟨⟨[], [], .inl rfl, List.nil_prefix, [], by simp⟩, fun hauto => ?_, fun _ => ⟨rfl, 0, rfl⟩⟩
  rw [← hsound.eq_clean hauto]

def Inside (durable pending : List Work) (c : Conn V) : Prop :=
  c.txn = some ⟨true, true⟩ ∧ c.link = ⟨⟨false, false, pending⟩, durable⟩

/-- The destructor rolls back what was not committed and goes back to autocommit. -/
theorem Inside.endBatch {durable pending : List Work} {c : Conn V} (h : Inside durable pending c) :
    c.endBatch.link = ⟨clean, durable⟩ ∧ c.endBatch.sent = c.sent := by
  obtain ⟨htxn, hlink⟩ := h
  unfold Conn.endBatch
  rw [htxn, hlink]
  refine ⟨?_, rfl⟩
  simp [Transaction.rollback, Transaction.finish, andThen, Connection.rollback, serverCall,
    setAutocommit, backendSetAutocommit, Link.dropWork, Link.commitWork, Link.setPending,
    Link.setMode, clean]

/-- A commit makes the pending work durable; one that fails leaves the transaction to the
destructor. -/
theorem commitBatch_inside {durable pending : List Work} {sent : List (Sent V)}
    {writes : List (Write V)} :
    Triple (fun c => Inside durable pending c ∧ c.sent = sent ∧ c.writes = writes)
      (Conn.commitBatch b)
      (fun _ c => c.endBatch.link = ⟨clean, durable ++ pending⟩ ∧ c.endBatch.sent = sent ∧
        c.endBatch.writes = writes)
      fun _ c => c.endBatch.link = ⟨clean, durable⟩ ∧ c.endBatch.sent = sent := by
  rintro c ⟨⟨htxn, hlink⟩, rfl, rfl⟩
  unfold Conn.commitBatch
  rw [htxn]
  dsimp only
  cases hfail : b.fails c.calls with
  | none =>
    refine ⟨fun _ _ => ?_, fun _ h => by cases h⟩
    have htx : Transaction.commit ⟨true, true⟩ none none c.link =
        (⟨clean, durable ++ pending⟩, ⟨false, true⟩) := by
      rw [hlink]
      simp [Transaction.commit, Transaction.finish, andThen, Connection.commit, serverCall,
        setAutocommit, backendSetAutocommit, Link.dropWork, Link.commitWork, Link.setPending,
        Link.setMode, clean]
    simp [htx, Conn.endBatch]
  | some e =>
    refine ⟨fun _ h => (by cases h), fun _ _ => ?_⟩
    have htx : ∃ left, Transaction.commit ⟨true, true⟩
        (some (if b.aborts c.calls then .aborted else .refused)) none c.link =
        (⟨⟨false, false, left⟩, durable⟩, ⟨true, true⟩) := by
      rw [hlink]
      cases b.aborts c.calls with
      | true => exact ⟨[], rfl⟩
      | false => exact ⟨pending, rfl⟩
    obtain ⟨left, htx⟩ := htx
    have hinside : Inside durable left { c with
        link := ⟨⟨false, false, left⟩, durable⟩
        txn := some ⟨true, true⟩
        scope := c.scope ++ [.commit]
        calls := c.calls + 1 } := ⟨rfl, rfl⟩
    simp only [Option.map_some, htx]
    exact hinside.endBatch

theorem Stopped.progress {statement : Except (WriteError E) Text} {batch : ℕ} {c : Conn V}
    {sets : List (Params V)} (h : Stopped statement batch c₀ sets c) :
    ∃ sql handed done, (handed = [] ∨ statement = .ok sql) ∧ handed <+: sets ∧
      Progress sql batch c₀ c handed done := by
  rcases h with rfl | ⟨sql, hsql, handed, done, hhanded, -, hprogress⟩
  · exact ⟨[], [], [], .inl rfl, List.nil_prefix, Progress.start c⟩
  · exact ⟨sql, handed, done, .inr hsql, hhanded, hprogress⟩

section
variable {statement : Except (WriteError E) Text} {batch : ℕ} {tally : RowTally}
  {sets : List (Params V)} {body : Conn.Run V E ℕ}
  (hbody : ∀ c₁, Triple (fun c => c = c₁) body
    (fun n c => ∃ sql, statement = .ok sql ∧ Tallied b sql batch tally c₁ (fun _ => True) sets n c)
    fun _ => Stopped statement batch c₁ sets)
include hbody

theorem inBatch_manual (hauto : c₀.autocommit = false) :
    Triple (fun c => c = c₀) (EntityMeta.inBatch b body)
      (fun n c => ∃ sql, statement = .ok sql ∧ Completed b sql batch tally c₀ sets n c)
      fun _ => Undone statement batch c₀ sets := by
  apply Triple.bind (Q := fun _ c => c = { c₀ with txn := none })
  · apply Triple.update
    rintro c rfl
    simp [hauto]
  intro _
  apply Triple.closing
  refine Triple.bind ((hbody _).mono (fun _ h => h) (fun _ _ h => h) ?_) ?_
  · intro _ c hstopped
    obtain ⟨sql, handed, done, hsql, hhanded, hprogress⟩ := hstopped.progress
    have hend : c.endBatch = c := by rw [Conn.endBatch, hprogress.txn]
    rw [hend]
    exact ⟨⟨sql, handed, hsql, hhanded, hprogress.sent⟩, fun h => by simp [hauto] at h,
      fun _ => ⟨hprogress.scope, done.length, hprogress.link⟩⟩
  · rintro n c ⟨sql, hsql, ⟨hprogress, -⟩, hcounted⟩
    have hcommit : Conn.commitBatch b c = (.ok (), c) := by rw [Conn.commitBatch, hprogress.txn]
    have hrun : (Conn.commitBatch b >>= fun _ => pure n : Conn.Run V E ℕ) c = (.ok n, c) := by
      change Action.bind (Conn.commitBatch b) _ c = _
      rw [Action.bind, hcommit]
      rfl
    have hend : c.endBatch = c := by rw [Conn.endBatch, hprogress.txn]
    rw [hrun]
    refine ⟨fun k hk => ?_, fun _ h => by cases h⟩
    obtain rfl := Except.ok.inj hk
    rw [hend]
    exact ⟨sql, hsql, hprogress.sent, hprogress.writes, hcounted, fun h => by simp [hauto] at h,
      fun _ => ⟨hprogress.scope, hprogress.link⟩⟩

theorem inBatch_autocommit (hsound : Sound c₀.link.session) (hauto : c₀.autocommit = true) :
    Triple (fun c => c = c₀) (EntityMeta.inBatch b body)
      (fun n c => ∃ sql, statement = .ok sql ∧ Completed b sql batch tally c₀ sets n c)
      fun _ => Undone statement batch c₀ sets := by
  obtain ⟨c₁, hc₁⟩ : ∃ c₁ : Conn V, c₁ = { c₀ with
      link := ⟨⟨false, false, []⟩, c₀.link.durable⟩
      txn := some ⟨true, true⟩
      scope := c₀.scope ++ [.begin] } := ⟨_, rfl⟩
  have hinside : ∀ {sql handed done c}, Progress sql batch c₁ c handed done →
      Inside c₀.link.durable (leases c₀.writes.length done.length) c := by
    intro sql handed done c hprogress
    refine ⟨by rw [hprogress.txn, hc₁], ?_⟩
    rw [hprogress.link, runAll_manual (by rw [hc₁]), hc₁]
    simp [Link.setPending]
  apply Triple.bind (Q := fun _ c => c = c₁)
  · apply Triple.update
    rintro c rfl
    rw [hauto, if_pos rfl, hc₁]
    have hclean := hsound.eq_clean hauto
    simp [beginTransaction, hclean, clean, setAutocommit, backendSetAutocommit, Link.setMode]
  intro _
  apply Triple.closing
  refine Triple.bind ((hbody c₁).mono (fun _ h => h) (fun _ _ h => h) ?_) ?_
  · intro _ c hstopped
    obtain ⟨sql, handed, done, hsql, hhanded, hprogress⟩ := hstopped.progress
    obtain ⟨hlink, hsent⟩ := (hinside hprogress).endBatch
    refine ⟨⟨sql, handed, hsql, hhanded, ?_⟩, fun _ => hlink, fun h => by simp [hauto] at h⟩
    have hsends := hprogress.sent
    rw [Sends, ← hsent, hc₁] at hsends
    exact hsends
  · rintro n c ⟨sql, hsql, ⟨hprogress, -⟩, hcounted⟩
    have hcommit := (commitBatch_inside (b := b)).bind fun _ => Triple.pure (a := n)
      (Q := fun k (c' : Conn V) => k = n ∧ c'.endBatch.link = ⟨clean, c₀.link.durable ++
        leases c₀.writes.length sets.length⟩ ∧ c'.endBatch.sent = c.sent ∧
        c'.endBatch.writes = c.writes) fun _ h => ⟨rfl, h⟩
    obtain ⟨hok, herror⟩ := hcommit c ⟨hinside hprogress, rfl, rfl⟩
    have hsends := hprogress.sent
    have hwrites := hprogress.writes
    rw [Sends, hc₁] at hsends
    rw [hc₁] at hwrites hcounted
    refine ⟨fun k hk => ?_, fun e he => ?_⟩
    · obtain ⟨rfl, hlink, hsent, hdone⟩ := hok k hk
      refine ⟨sql, hsql, ?_, hdone.trans hwrites, hcounted, fun _ => hlink,
        fun h => by simp [hauto] at h⟩
      rw [Sends, hsent]
      exact hsends
    · obtain ⟨hlink, hsent⟩ := herror e he
      refine ⟨⟨sql, sets, .inr hsql, List.prefix_rfl, ?_⟩, fun _ => hlink,
        fun h => by simp [hauto] at h⟩
      rw [Sends, hsent]
      exact hsends

/-- A batch commits everything or nothing, or takes part in the transaction it finds. -/
theorem inBatch_triple (hsound : Sound c₀.link.session) :
    Triple (fun c => c = c₀) (EntityMeta.inBatch b body)
      (fun n c => ∃ sql, statement = .ok sql ∧ Completed b sql batch tally c₀ sets n c)
      fun _ => Undone statement batch c₀ sets := by
  cases hauto : c₀.autocommit with
  | false => exact inBatch_manual hbody hauto
  | true => exact inBatch_autocommit hbody hsound hauto

end

/-- A write of a vector that returned. -/
def Wrote (b : Backend V E) (m : EntityMeta R V) (op : Op) (rows : List R) (batchSize : ℕ)
    (c₀ : Conn V) (n : ℕ) (c : Conn V) : Prop :=
  ∃ cols sql, (m.boundColumns op : Except (WriteError E) _) = .ok cols ∧
    (m.statementOf b.dialect op : Except (WriteError E) _) = .ok sql ∧
    Completed b sql (EntityMeta.chunkSize b.caps op batchSize) (EntityMeta.tallyOf b.caps op) c₀
      (tuples m cols rows) n c

def Threw (b : Backend V E) (m : EntityMeta R V) (op : Op) (rows : List R) (batchSize : ℕ)
    (c₀ c : Conn V) : Prop :=
  ∃ cols, (c = c₀ ∨ (m.boundColumns op : Except (WriteError E) _) = .ok cols) ∧
    Undone (m.statementOf b.dialect op : Except (WriteError E) _)
      (EntityMeta.chunkSize b.caps op batchSize) c₀ (tuples m cols rows) c

theorem Threw.before {op : Op} {batchSize : ℕ} (hsound : Sound c₀.link.session) :
    Threw b m op rows batchSize c₀ c₀ := ⟨[], .inl rfl, Undone.before hsound⟩

theorem batch_triple (op : Op) {batchSize : ℕ} {statement : Except (WriteError E) Text}
    {tally : RowTally} {bind : List (Params V) → ℕ → Conn.Run V E Unit} (hbind : Binds bind)
    (hrows : rows ≠ []) (hsound : Sound c₀.link.session)
    (hcols : (m.boundColumns op : Except (WriteError E) _) = .ok cols)
    (hstatement : m.statementOf b.dialect op = statement)
    (htally : (if b.caps.columnarBatch then tally else .affectedRows) = EntityMeta.tallyOf b.caps op) :
    Triple (fun c => c = c₀)
      (EntityMeta.inBatch b <|
        if b.caps.columnarBatch then do
          let sql ← Action.lift statement
          m.columnarBatchWrite b sql cols rows (EntityMeta.chunkSize b.caps op batchSize) tally
        else do
          let sql ← Action.lift statement
          m.rowwise b sql cols rows (EntityMeta.chunkSize b.caps op batchSize) bind)
      (Wrote b m op rows batchSize c₀) fun _ => Threw b m op rows batchSize c₀ := by
  have hrun := inBatch_triple (fun c₁ => channel_triple b m cols
    (EntityMeta.chunkSize b.caps op batchSize) statement tally c₁ hbind hrows) hsound
  refine hrun.mono (fun _ h => h) ?_ ?_
  · rintro n c ⟨sql, hsql, hdone⟩
    rw [htally] at hdone
    exact ⟨cols, sql, hcols, hstatement.trans hsql, hdone⟩
  · intro _ c hundone
    rw [← hstatement] at hundone
    exact ⟨cols, .inr hcols, hundone⟩

/-- The fields of a write that matches rows are resolved before anything is sent. -/
theorem resolved_triple {op : Op} {batchSize : ℕ} (hsound : Sound c₀.link.session)
    {resolved : Except (WriteError E) (List m.Index)} {f : List m.Index → Conn.Run V E ℕ}
    (hf : ∀ whereCols, resolved = .ok whereCols → Triple (fun c => c = c₀) (f whereCols)
      (Wrote b m op rows batchSize c₀) fun _ => Threw b m op rows batchSize c₀) :
    Triple (fun c => c = c₀) (Action.lift resolved >>= f) (Wrote b m op rows batchSize c₀)
      fun _ => Threw b m op rows batchSize c₀ := by
  apply Triple.bind (Q := fun whereCols c => resolved = .ok whereCols ∧ c = c₀)
  · exact Triple.lift (fun c whereCols hc h => ⟨h, hc⟩) fun c _ hc _ => hc ▸ Threw.before (hc ▸ hsound)
  · rintro whereCols c ⟨hresolved, hc⟩
    exact hf whereCols hresolved c hc

theorem update_triple (hsound : Sound c₀.link.session) (hrows : rows ≠ [])
    (whereFields : Option (List Text)) (batchSize : ℕ) :
    Triple (fun c => c = c₀) (m.updateBatchImpl b rows whereFields batchSize)
      (Wrote b m (.update whereFields) rows batchSize c₀)
      fun _ => Threw b m (.update whereFields) rows batchSize c₀ := by
  rw [EntityMeta.updateBatchImpl, if_neg (by simpa using hrows)]
  apply resolved_triple hsound
  intro whereCols hwhere
  by_cases hset : m.setColumnsOf whereCols = []
  · simp only [hset, if_true]
    apply Triple.throw
    rintro c rfl
    exact Threw.before hsound
  · simp only [hset, if_false]
    apply batch_triple (.update whereFields) (binds_size_first b) hrows hsound
    · rw [EntityMeta.boundColumns, hwhere]
      exact if_neg hset
    · rw [EntityMeta.statementOf, hwhere]
      rfl
    · exact ite_self _

theorem delete_triple (hsound : Sound c₀.link.session) (hrows : rows ≠ [])
    (whereFields : Option (List Text)) (batchSize : ℕ) :
    Triple (fun c => c = c₀) (m.deleteBatchImpl b rows whereFields batchSize)
      (Wrote b m (.remove whereFields) rows batchSize c₀)
      fun _ => Threw b m (.remove whereFields) rows batchSize c₀ := by
  rw [EntityMeta.deleteBatchImpl, if_neg (by simpa using hrows)]
  apply resolved_triple hsound
  intro whereCols hwhere
  apply batch_triple (.remove whereFields) (binds_size_first b) hrows hsound
  · exact hwhere
  · rw [EntityMeta.statementOf, hwhere]
    rfl
  · exact ite_self _

/-- What a write of a vector does, whatever the backend answers. -/
theorem writeBatch_triple (hsound : Sound c₀.link.session) (hrows : rows ≠ []) (op : Op)
    (batchSize : ℕ) :
    Triple (fun c => c = c₀) (m.writeBatch b op rows batchSize) (Wrote b m op rows batchSize c₀)
      fun _ => Threw b m op rows batchSize c₀ := by
  cases op with
  | insert =>
    change Triple _ (m.insertImpl b rows batchSize) _ _
    rw [EntityMeta.insertImpl, if_neg (by simpa using hrows)]
    exact batch_triple .insert (binds_batch_first b) hrows hsound rfl rfl rfl
  | update whereFields => exact update_triple hsound hrows whereFields batchSize
  | remove whereFields => exact delete_triple hsound hrows whereFields batchSize

/-- A write of no rows does nothing. -/
theorem writeBatch_nil (op : Op) (batchSize : ℕ) (c : Conn V) :
    m.writeBatch b op [] batchSize c = (.ok 0, c) := by
  cases op <;> rfl

/-- The write of every row is durable. -/
def Stored (b : Backend V E) (m : EntityMeta R V) (op : Op) (rows : List R) (c₀ c : Conn V) : Prop :=
  ∃ cols sql, (rows ≠ [] → (m.boundColumns op : Except (WriteError E) _) = .ok cols ∧
      (m.statementOf b.dialect op : Except (WriteError E) _) = .ok sql) ∧
    c.writes = c₀.writes ++ (tuples m cols rows).map (Write.mk sql) ∧
    c.link.durable = c₀.link.durable ++ leases c₀.writes.length rows.length

/-- What a write that meets autocommit mode ends in: every write durable and a result, or none of them
and an exception, in autocommit mode again. -/
def AllOrNothing (b : Backend V E) (m : EntityMeta R V) (op : Op) (rows : List R) (c₀ : Conn V)
    (r : Except (WriteError E) ℕ × Conn V) : Prop :=
  r.2.link.session = clean ∧
    ((∃ n, r.1 = .ok n ∧ Stored b m op rows c₀ r.2) ∨
      ∃ e, r.1 = .error e ∧ r.2.link.durable = c₀.link.durable)

/-- A write that meets manual mode makes no call that ends the transaction or changes the mode. -/
structure LeavesScope (c₀ : Conn V) (r : Except (WriteError E) ℕ × Conn V) : Prop where
  scope : r.2.scope = c₀.scope
  autocommit : r.2.link.session.autocommit = false
  mode : r.2.link.session.mode = false
  durable : r.2.link.durable = c₀.link.durable

theorem LeavesScope.of_runAll {c c₀ : Conn V} {r : Except (WriteError E) ℕ} {work : List Work}
    (hsound : Sound c₀.link.session) (hauto : c₀.autocommit = false) (hscope : c.scope = c₀.scope)
    (hlink : c.link = runAll c₀.link work) : LeavesScope c₀ (r, c) := by
  have hmode : c₀.link.session.mode = false := hsound.agree.symm.trans hauto
  rw [runAll_manual hmode] at hlink
  exact ⟨hscope, by rw [hlink]; exact hauto, by rw [hlink]; exact hmode, by rw [hlink]; rfl⟩

/-- A write of a vector is all or nothing on a connection that commits by itself, and leaves the
transaction to the caller on one that does not. -/
theorem batch_write_all_or_nothing (b : Backend V E) (m : EntityMeta R V) (op : Op) (rows : List R)
    (batchSize : ℕ) (c : Conn V) (hsound : Sound c.link.session) :
    (c.autocommit = true → AllOrNothing b m op rows c (m.writeBatch b op rows batchSize c)) ∧
      (c.autocommit = false → LeavesScope c (m.writeBatch b op rows batchSize c)) := by
  by_cases hrows : rows = []
  · subst hrows
    rw [writeBatch_nil]
    refine ⟨fun hauto => ⟨hsound.eq_clean hauto, .inl ⟨0, rfl, [], [], ?_⟩⟩, fun hauto => ?_⟩
    · simp [tuples, leases]
    · have hnone : c.link = runAll c.link [] := rfl
      exact LeavesScope.of_runAll hsound hauto rfl hnone
  have hrun := writeBatch_triple (b := b) (m := m) hsound hrows op batchSize c rfl
  rcases hresult : m.writeBatch b op rows batchSize c with ⟨r, c'⟩
  rw [hresult] at hrun
  cases r with
  | ok n =>
    obtain ⟨cols, sql, hcols, hsql, hdone⟩ := hrun.1 n rfl
    constructor
    · intro hauto
      have hlink := hdone.committed hauto
      rw [length_tuples] at hlink
      exact ⟨by rw [hlink], .inl ⟨n, rfl, cols, sql, fun _ => ⟨hcols, hsql⟩, hdone.writes,
        by rw [hlink]⟩⟩
    · intro hauto
      obtain ⟨hscope, hlink⟩ := hdone.joined hauto
      exact LeavesScope.of_runAll hsound hauto hscope hlink
  | error e =>
    obtain ⟨cols, -, hundone⟩ := hrun.2 e rfl
    constructor
    · intro hauto
      have hlink := hundone.dropped hauto
      exact ⟨by rw [hlink], .inr ⟨e, rfl, by rw [hlink]⟩⟩
    · intro hauto
      obtain ⟨hscope, n, hlink⟩ := hundone.joined hauto
      exact LeavesScope.of_runAll hsound hauto hscope hlink

end

/-- A backend that never throws. Every write affects one row, and without totals an array is counted
as its first set. -/
def quiet (V : Type v) (E : Type w) [Inhabited V] (d : Dialect) (caps : Capabilities) :
    Backend V E where
  caps := caps
  dialect := d
  fails _ := none
  partway _ := 0
  aborts _ := false
  affected _ _ := 1
  report _ cs := if caps.arrayRowcountTotals then cs.sum else cs.headD 0
  blank := default

/-- A mapping of one key and one other column. -/
def keyed : EntityMeta (ℕ × ℕ) ℕ where
  table := ['t']
  columns := [⟨['i', 'd'], true, .int64, fun row => some row.1, fun _ => 0, fun _ _ => rfl⟩,
    ⟨['n'], false, .int64, fun row => some row.2, fun _ => 0, fun _ _ => rfl⟩]
  resolved := none

def idle (V : Type v) : Conn V where
  link := ⟨clean, []⟩
  writes := []
  calls := 0
  stmt := ⟨[], 1, .nothing, [], []⟩
  sent := []
  txn := none
  scope := []

/-- An update of three rows, one by one, whose third `execute` throws. -/
theorem third_execute_throws :
    Sound (idle ℕ).link.session ∧
      let b := { quiet ℕ Unit {} ⟨false, false⟩ with fails := fun n => if n = 14 then some () else none }
      AllOrNothing b keyed (.update none) [(1, 2), (3, 4), (5, 6)] (idle ℕ)
        (keyed.writeBatch b (.update none) [(1, 2), (3, 4), (5, 6)] 2 (idle ℕ)) :=
  ⟨sound_clean, (batch_write_all_or_nothing _ keyed _ _ 2 (idle ℕ) sound_clean).1 rfl⟩

end Uniorm.Orm
