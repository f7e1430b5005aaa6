import Uniorm.Orm.Batch

/-! # Statement and values line up

The text of a write and the values bound to it come from one list of columns, whether a single
entity is written or a vector, and whichever channel the vector takes.
-/
namespace Uniorm.Orm

open Foundation Sql Builder Action
open Connection (Sound sound_clean)

universe u v w

/-- A write of a vector, or the update or removal of one entity. -/
inductive Request (R : Type u) where
  | batch (op : Op) (rows : List R) (batchSize : ℕ)
  | updateOne (entity : R) (whereFields : Option (List Text))
  | removeOne (entity : R) (whereFields : Option (List Text))

namespace Request
variable {R : Type u}

def op : Request R → Op
  | batch op _ _ => op
  | updateOne _ whereFields => .update whereFields
  | removeOne _ whereFields => .remove whereFields

def rows : Request R → List R
  | batch _ rows _ => rows
  | updateOne entity _ => [entity]
  | removeOne entity _ => [entity]

/-- The largest number of rows one `execute` may take. -/
def limit : Request R → ℕ
  | batch _ _ batchSize => EntityMeta.chunkOf batchSize
  | updateOne _ _ => 1
  | removeOne _ _ => 1

end Request

section
variable {R : Type u} {V : Type v} {E : Type w}

def EntityMeta.run (b : Backend V E) (m : EntityMeta R V) : Request R → Conn.Run V E ℕ
  | .batch op rows batchSize => m.writeBatch b op rows batchSize
  | .updateOne entity whereFields => m.updateSingleImpl b entity whereFields
  | .removeOne entity whereFields => m.deleteSingleImpl b entity whereFields

def Conn.pairs (c : Conn V) : List (Write V) := c.sent.flatMap fun s => s.sets.map (Write.mk s.sql)

def whereNames (m : EntityMeta R V) (whereFields : Option (List Text)) : List Text :=
  whereFields.getD m.primaryKeyColumns

variable {b : Backend V E} {m : EntityMeta R V} {sql : Text} {batch : ℕ} {c₀ c : Conn V}
  {sets : List (Params V)}

theorem Sends.pairs_eq (h : Sends sql batch c₀ c sets) :
    c.pairs = c₀.pairs ++ sets.map (Write.mk sql) := by
  obtain ⟨chunks, hsent, rfl, -⟩ := h
  rw [Conn.pairs, hsent, List.flatMap_append, List.map_flatten, List.flatMap_map, List.flatMap_def]
  rfl

/-- Chunks may be longer than asked for, as long as no limit is passed. -/
theorem Sends.mono {limit : ℕ} (h : Sends sql batch c₀ c sets) (hbatch : batch ≤ limit) :
    Sends sql limit c₀ c sets := by
  obtain ⟨chunks, hsent, hflat, hchunks⟩ := h
  exact ⟨chunks, hsent, hflat, fun chunk hchunk =>
    ⟨(hchunks chunk hchunk).1, (hchunks chunk hchunk).2.trans hbatch⟩⟩

theorem findColumn_column {field : Text} {i : m.Index} (h : m.findColumn field = some i) :
    (m.col i).column = field := by
  have hfound := List.find?_some h
  simpa using hfound

theorem resolveWhereColumns_names {fields : List Text} {op : String} {cols : List m.Index}
    (h : (m.resolveWhereColumns fields op : Except (WriteError E) _) = .ok cols) :
    cols.map (fun i => (m.col i).column) = fields := by
  unfold EntityMeta.resolveWhereColumns at h
  split at h
  · cases h
  rename_i hsome
  have hall := forall₂_of_mapM h
  clear h hsome
  induction hall with
  | nil => rfl
  | @cons field i _ _ hfound _ ih =>
    cases hcol : m.findColumn field with
    | none =>
      rw [hcol] at hfound
      cases hfound
    | some j =>
      rw [hcol] at hfound
      obtain rfl := Except.ok.inj hfound
      rw [List.map_cons, findColumn_column hcol, ih]

theorem resolveWhere_names {whereFields : Option (List Text)} {op : String} {cols : List m.Index}
    (h : (m.resolveWhere whereFields op : Except (WriteError E) _) = .ok cols) :
    cols.map (fun i => (m.col i).column) = whereNames m whereFields := by
  cases whereFields with
  | some fields => exact resolveWhereColumns_names h
  | none =>
    unfold EntityMeta.resolveWhere at h
    dsimp only at h
    split at h
    · cases h
    · exact resolveWhereColumns_names h

theorem column_injective (hdistinct : (m.columns.map (·.column)).Nodup) {i j : m.Index}
    (h : (m.col i).column = (m.col j).column) : i = j := by
  have hi : (i : ℕ) < (m.columns.map (·.column)).length := by simp
  have hj : (j : ℕ) < (m.columns.map (·.column)).length := by simp
  have hsame : (⟨i, hi⟩ : Fin _) = ⟨j, hj⟩ := by
    apply List.nodup_iff_injective_get.mp hdistinct
    simpa [EntityMeta.col] using h
  exact Fin.ext (Fin.mk.inj hsame)

/-- Where names are distinct, the assigned columns are those that the condition does not name. -/
theorem setColumnsOf_eq (hdistinct : (m.columns.map (·.column)).Nodup) {whereCols : List m.Index}
    {names : List Text} (hnames : whereCols.map (fun i => (m.col i).column) = names) :
    m.setColumnsOf whereCols = m.allColumns.filter fun i => (m.col i).column ∉ names := by
  unfold EntityMeta.setColumnsOf EntityMeta.allColumns
  apply List.filter_congr
  intro i _
  rw [← hnames, decide_eq_decide, not_iff_not]
  constructor
  · exact fun hi => List.mem_map_of_mem hi
  · intro hi
    obtain ⟨j, hj, hsame⟩ := List.mem_map.mp hi
    rwa [← column_injective hdistinct hsame]

/-- The placeholders of the statement and the columns whose values are bound agree. -/
def MarksAgree (q : Quote) (m : EntityMeta R V) (d : Dialect) (sql : Text) (cols : List m.Index) :
    Prop :=
  ∃ ts, lex q sql = some ts ∧ markColumns ts = cols.map fun i => some (m.spelled d i)

variable {q : Quote} {d : Dialect} {op : Op} {cols : List m.Index}

theorem marksAgree_insert (hq : d.UsesQuote q)
    (hsql : (m.buildInsertSql d : Except (WriteError E) _) = .ok sql) :
    MarksAgree q m d sql m.allColumns ↔ m.columns ≠ [] := by
  obtain ⟨ts, hts, hmarks⟩ := buildInsertSql_marks hq hsql
  have hcolumns : m.allColumns.length = m.columns.length := by simp [EntityMeta.allColumns]
  constructor
  · rintro ⟨ts', hts', hmarks'⟩ hempty
    obtain rfl := Option.some.inj (hts.symm.trans hts')
    have hlen := congrArg List.length (hmarks.symm.trans hmarks')
    simp only [List.length_map, List.length_range, hcolumns, hempty, List.length_nil] at hlen
    omega
  · intro hsome
    have hpos := List.length_pos_iff.mpr hsome
    refine ⟨ts, hts, hmarks.trans ?_⟩
    apply List.ext_getElem
    · simp only [List.length_map, List.length_range, hcolumns]
      omega
    · intro k hk hk'
      have hlt : k < (m.allColumns.map (m.spelled d)).length := by simpa using hk'
      rw [List.getElem_map, List.getElem_map, List.getElem_range, List.getElem?_eq_getElem hlt,
        List.getElem_map]

/-- Only the INSERT of a mapping without columns has a placeholder that no column fills. -/
theorem marksAgree_iff (hq : d.UsesQuote q)
    (hcols : (m.boundColumns op : Except (WriteError E) _) = .ok cols)
    (hsql : (m.statementOf d op : Except (WriteError E) _) = .ok sql) :
    MarksAgree q m d sql cols ↔ ¬ (op = .insert ∧ m.columns = []) := by
  cases op with
  | insert =>
    obtain rfl := Except.ok.inj hcols
    rw [marksAgree_insert hq hsql]
    simp
  | update whereFields =>
    obtain ⟨whereCols, hwhere, hset⟩ := bind_eq_ok.mp hcols
    obtain ⟨_, hwhere', hupdate⟩ := bind_eq_ok.mp hsql
    obtain rfl := Except.ok.inj (hwhere.symm.trans hwhere')
    split at hset
    · cases hset
    obtain rfl := Except.ok.inj hset
    exact iff_of_true (updateStatement_marks hq hupdate) (by simp)
  | remove whereFields =>
    obtain ⟨_, hwhere, hdelete⟩ := bind_eq_ok.mp hsql
    obtain rfl := Except.ok.inj (hcols.symm.trans hwhere)
    exact iff_of_true (deleteStatement_marks hq hdelete) (by simp)

def SentAll (b : Backend V E) (m : EntityMeta R V) (r : Request R) (c₀ c : Conn V) : Prop :=
  ∃ cols sql, (m.boundColumns r.op : Except (WriteError E) _) = .ok cols ∧
    (m.statementOf b.dialect r.op : Except (WriteError E) _) = .ok sql ∧
    Sends sql r.limit c₀ c (tuples m cols r.rows)

def SentSome (b : Backend V E) (m : EntityMeta R V) (r : Request R) (c₀ c : Conn V) : Prop :=
  ∃ cols sql handed, (handed = [] ∨ (m.boundColumns r.op : Except (WriteError E) _) = .ok cols ∧
      (m.statementOf b.dialect r.op : Except (WriteError E) _) = .ok sql) ∧
    handed <+: tuples m cols r.rows ∧ Sends sql r.limit c₀ c handed

/-- Nothing has been sent yet. -/
def Fresh (c₀ c : Conn V) : Prop := ∀ sql, Progress sql 1 c₀ c [] []

theorem Fresh.sentSome {r : Request R} (h : Fresh c₀ c) : SentSome b m r c₀ c := by
  obtain ⟨chunks, hsent, hflat, hchunks⟩ := (h []).sent
  have hnone : chunks = [] := by
    rw [List.flatten_eq_nil_iff] at hflat
    apply List.eq_nil_iff_forall_not_mem.mpr
    exact fun chunk hchunk => (hchunks chunk hchunk).1 (hflat chunk hchunk)
  subst hnone
  exact ⟨[], [], [], .inl rfl, List.nil_prefix, [], hsent, rfl, by simp⟩

theorem encode_fresh {r : Request R} :
    Triple (Fresh c₀) (Conn.encode b) (fun _ => Fresh c₀) fun _ => SentSome b m r c₀ := by
  intro c hc
  unfold Conn.encode Conn.onStatement Conn.call
  have hnext : ∀ calls, Fresh c₀ { c with calls := calls } := fun calls sql => (hc sql).frame _ _
  cases b.fails c.calls with
  | some e => exact ⟨nofun, fun _ _ => (hnext _).sentSome⟩
  | none => exact ⟨fun _ _ => hnext _, nofun⟩

theorem lift_fresh {α : Type} {r : Request R} (x : Except (WriteError E) α) :
    Triple (Fresh c₀) (Action.lift x) (fun a c => x = .ok a ∧ Fresh c₀ c)
      fun _ => SentSome b m r c₀ :=
  Triple.lift (fun _ _ hc ha => ⟨ha, hc⟩) fun _ _ hc _ => hc.sentSome

theorem executeUpdate_triple {r : Request R} {cols : List m.Index} {entity : R}
    (hrows : r.rows = [entity]) (hlimit : r.limit = 1)
    (hcols : (m.boundColumns r.op : Except (WriteError E) _) = .ok cols)
    (hsql : (m.statementOf b.dialect r.op : Except (WriteError E) _) = .ok sql) :
    Triple (Fresh c₀) (EntityMeta.executeUpdate b sql (m.extractRow cols entity))
      (fun _ => SentAll b m r c₀) fun _ => SentSome b m r c₀ := by
  have htuples : tuples m cols r.rows = [m.extractRow cols entity] := by rw [hrows]; rfl
  have hbound : Triple (At sql 1 c₀ [] fun _ => True)
      (EntityMeta.executeUpdate b sql (m.extractRow cols entity))
      (fun n => Tallied b sql 1 .affectedRows c₀ (fun _ => True) [m.extractRow cols entity] (0 + n))
      fun _ => Broken sql 1 c₀ [m.extractRow cols entity] := by
    apply Triple.bind (Q := fun _ => At sql 1 c₀ [] fun s => s.sql = sql)
    · exact onStatement_triple List.nil_prefix fun _ _ => rfl
    intro _
    apply Triple.bind (Q := fun _ => At sql 1 c₀ [] fun s => s.sql = sql ∧
      s.sets = [m.extractRow cols entity] ∧ s.intact = true ∧ True)
    · exact onStatement_triple List.nil_prefix fun _ hs => ⟨hs, rfl, rfl, trivial⟩
    intro _
    have hzero : Exact b sql 1 .affectedRows → 0 = rowsAffected b sql c₀.writes [] := fun _ => rfl
    have hall : [] ++ [m.extractRow cols entity] <+: [m.extractRow cols entity] := List.prefix_rfl
    exact chunk_triple (K := fun _ => True) hall (List.cons_ne_nil _ _) (le_refl 1)
      (fun _ _ h => h) hzero
  refine hbound.mono (fun c hc => ⟨hc sql, trivial⟩) ?_ ?_
  · rintro n c ⟨⟨hprogress, -⟩, -⟩
    refine ⟨cols, sql, hcols, hsql, ?_⟩
    rw [htuples, hlimit]
    exact hprogress.sent
  · rintro _ c ⟨handed, done, hhanded, -, hprogress⟩
    refine ⟨cols, sql, handed, .inr ⟨hcols, hsql⟩, ?_, ?_⟩
    · rwa [htuples]
    · rw [hlimit]
      exact hprogress.sent

theorem updateOne_triple (entity : R) (whereFields : Option (List Text)) :
    Triple (Fresh c₀) (m.updateSingleImpl b entity whereFields)
      (fun _ => SentAll b m (.updateOne entity whereFields) c₀)
      fun _ => SentSome b m (.updateOne entity whereFields) c₀ := by
  apply (lift_fresh (m.resolveWhere whereFields "update")).bind
  rintro whereCols c ⟨hwhere, hc⟩
  dsimp only
  split
  · exact Triple.throw (fun _ h => h.sentSome) c hc
  rename_i hset
  have hcols : (m.boundColumns (.update whereFields) : Except (WriteError E) _) =
      .ok (m.setColumnsOf whereCols ++ whereCols) := by
    rw [EntityMeta.boundColumns, hwhere]
    exact if_neg hset
  have hstatement : (m.statementOf b.dialect (.update whereFields) : Except (WriteError E) _) =
      m.updateStatement b.dialect (m.setColumnsOf whereCols) whereCols := by
    rw [EntityMeta.statementOf, hwhere]
    rfl
  refine Triple.bind encode_fresh (fun _ => (lift_fresh _).bind fun sql => ?_) c hc
  rintro c ⟨hsql, hc⟩
  exact executeUpdate_triple rfl rfl hcols (hstatement.trans hsql) c hc

theorem removeOne_triple (entity : R) (whereFields : Option (List Text)) :
    Triple (Fresh c₀) (m.deleteSingleImpl b entity whereFields)
      (fun _ => SentAll b m (.removeOne entity whereFields) c₀)
      fun _ => SentSome b m (.removeOne entity whereFields) c₀ := by
  apply (lift_fresh (m.resolveWhere whereFields "remove")).bind
  rintro whereCols c ⟨hwhere, hc⟩
  have hstatement : (m.statementOf b.dialect (.remove whereFields) : Except (WriteError E) _) =
      m.deleteStatement b.dialect whereCols := by
    rw [EntityMeta.statementOf, hwhere]
    rfl
  refine (lift_fresh _).bind ?_ c hc
  rintro sql c ⟨hsql, hc⟩
  refine Triple.bind encode_fresh (fun _ => ?_) c hc
  exact executeUpdate_triple rfl rfl hwhere (hstatement.trans hsql)

theorem writeChunk_le (caps : Capabilities) (chunk : ℕ+) :
    (EntityMeta.writeChunk caps chunk : ℕ) ≤ chunk := by
  unfold EntityMeta.writeChunk
  split
  · exact le_refl _
  · exact chunk.pos

theorem chunkSize_le (caps : Capabilities) (op : Op) (batchSize : ℕ) :
    (EntityMeta.chunkSize caps op batchSize : ℕ) ≤ EntityMeta.chunkOf batchSize := by
  cases op with
  | insert => exact le_refl _
  | update _ => exact writeChunk_le caps _
  | remove _ => exact writeChunk_le caps _

theorem run_triple (r : Request R) (hsound : Sound c₀.link.session) (hrows : r.rows ≠ []) :
    Triple (fun c => c = c₀) (m.run b r) (fun _ => SentAll b m r c₀)
      fun _ => SentSome b m r c₀ := by
  have hfresh : Fresh c₀ c₀ := fun sql => Progress.start c₀
  cases r with
  | batch op rows batchSize =>
    refine (writeBatch_triple hsound hrows op batchSize).mono (fun _ h => h) ?_ ?_
    · rintro n c ⟨cols, sql, hcols, hsql, hdone⟩
      exact ⟨cols, sql, hcols, hsql, hdone.sent.mono (chunkSize_le b.caps op batchSize)⟩
    · rintro _ c ⟨cols, hcols, hundone⟩
      rcases hcols with rfl | hcols
      · exact hfresh.sentSome
      obtain ⟨sql, handed, hsql, hhanded, hsent⟩ := hundone.sent
      exact ⟨cols, sql, handed, hsql.imp_right fun h => ⟨hcols, h⟩, hhanded,
        hsent.mono (chunkSize_le b.caps op batchSize)⟩
  | updateOne entity whereFields =>
    exact (updateOne_triple entity whereFields).mono (fun c hc => hc ▸ hfresh) (fun _ _ h => h)
      fun _ _ h => h
  | removeOne entity whereFields =>
    exact (removeOne_triple entity whereFields).mono (fun c hc => hc ▸ hfresh) (fun _ _ h => h)
      fun _ _ h => h

/-- What a request makes of its statement and its rows: the k-th placeholder belongs to the column
whose value is the k-th of a tuple, the assigned columns are those the condition does not name, and
the tuples of all rows are sent in order, in chunks of at most the batch size. The pairs of statement
and tuple are the same in every channel. -/
structure LinesUp (q : Quote) (b : Backend V E) (m : EntityMeta R V) (r : Request R) (c₀ : Conn V) :
    Prop where
  marks : r.rows ≠ [] → ∀ cols sql, (m.boundColumns r.op : Except (WriteError E) _) = .ok cols →
    (m.statementOf b.dialect r.op : Except (WriteError E) _) = .ok sql →
    MarksAgree q m b.dialect sql cols
  assigned : ∀ whereFields, r.op = .update whereFields → ∀ cols,
    (m.boundColumns r.op : Except (WriteError E) _) = .ok cols → ∃ whereCols,
      whereCols.map (fun i => (m.col i).column) = whereNames m whereFields ∧
      cols = m.allColumns.filter (fun i => (m.col i).column ∉ whereNames m whereFields) ++ whereCols
  returned : ∀ n, (m.run b r c₀).1 = .ok n → r.rows ≠ [] → SentAll b m r c₀ (m.run b r c₀).2
  threw : ∀ e, (m.run b r c₀).1 = .error e → r.rows ≠ [] → SentSome b m r c₀ (m.run b r c₀).2
  nothing : r.rows = [] → (m.run b r c₀).2.sent = c₀.sent
  pairs : ∀ n, (m.run b r c₀).1 = .ok n → ∀ cols sql,
    (m.boundColumns r.op : Except (WriteError E) _) = .ok cols →
    (m.statementOf b.dialect r.op : Except (WriteError E) _) = .ok sql →
    (m.run b r c₀).2.pairs = c₀.pairs ++ (tuples m cols r.rows).map (Write.mk sql)

/-- The request that cannot line up. -/
def InsertsNoColumn (E : Type w) (m : EntityMeta R V) (d : Dialect) (r : Request R) : Prop :=
  r.op = .insert ∧ m.columns = [] ∧ r.rows ≠ [] ∧
    ∃ table, (m.tableSql d : Except (WriteError E) _) = .ok table

/-- The statement of a mapping without columns renders when its table does. -/
theorem buildInsertSql_renders (hcolumns : m.columns = []) {table : Text}
    (htable : (m.tableSql d : Except (WriteError E) _) = .ok table) :
    ∃ sql, (m.buildInsertSql d : Except (WriteError E) _) = .ok sql := by
  have hall : m.allColumns = [] := by simp [EntityMeta.allColumns, hcolumns]
  rw [EntityMeta.buildInsertSql, htable, hall]
  exact ⟨_, rfl⟩

theorem not_linesUp {r : Request R} (hq : b.dialect.UsesQuote q)
    (h : InsertsNoColumn E m b.dialect r) : ¬ LinesUp q b m r c₀ := by
  obtain ⟨hop, hcolumns, hrows, table, htable⟩ := h
  obtain ⟨sql, hsql⟩ := buildInsertSql_renders hcolumns htable
  intro hlines
  have hcols : (m.boundColumns r.op : Except (WriteError E) _) = .ok m.allColumns := by rw [hop]; rfl
  have hstatement : (m.statementOf b.dialect r.op : Except (WriteError E) _) = .ok sql := by
    rw [hop]
    exact hsql
  exact (marksAgree_iff hq hcols hstatement).mp (hlines.marks hrows _ sql hcols hstatement)
    ⟨hop, hcolumns⟩

/-- Statement and values line up in every channel, unless a mapping without columns is inserted. -/
theorem statement_and_values_line_up (b : Backend V E) (m : EntityMeta R V) (r : Request R)
    (c : Conn V) {dbmsName : Text} {policy : Option IdentifierCase}
    (hdialect : b.dialect = sqlDialect dbmsName policy)
    (hdistinct : (m.columns.map (·.column)).Nodup) (hsound : Sound c.link.session) :
    LinesUp b.dialect.quote b m r c ↔ ¬ InsertsNoColumn E m b.dialect r := by
  have hq : b.dialect.UsesQuote b.dialect.quote := by
    rw [hdialect]
    exact sqlDialect_usesQuote dbmsName policy
  refine ⟨fun h hnone => not_linesUp hq hnone h, fun hnone => ?_⟩
  have hempty : r.rows = [] → (m.run b r c).2 = c := by
    intro hrows
    cases r with
    | batch op rows batchSize =>
      obtain rfl : rows = [] := hrows
      rw [EntityMeta.run, writeBatch_nil]
    | updateOne entity whereFields => cases hrows
    | removeOne entity whereFields => cases hrows
  have hreturned : ∀ n, (m.run b r c).1 = .ok n → r.rows ≠ [] →
      SentAll b m r c (m.run b r c).2 := fun n hn hrows =>
    (run_triple r hsound hrows c rfl).1 n hn
  refine ⟨?_, ?_, hreturned, fun e he hrows => (run_triple r hsound hrows c rfl).2 e he,
    fun hrows => by rw [hempty hrows], ?_⟩
  · intro hrows cols sql hcols hsql
    rw [marksAgree_iff hq hcols hsql]
    rintro ⟨hop, hcolumns⟩
    rw [hop] at hsql
    obtain ⟨table, htable, -⟩ := bind_eq_ok.mp hsql
    exact hnone ⟨hop, hcolumns, hrows, table, htable⟩
  · intro whereFields hop cols hcols
    rw [hop] at hcols
    obtain ⟨whereCols, hwhere, hset⟩ := bind_eq_ok.mp hcols
    have hnames := resolveWhere_names hwhere
    split at hset
    · cases hset
    · rw [setColumnsOf_eq hdistinct hnames] at hset
      exact ⟨whereCols, hnames, (Except.ok.inj hset).symm⟩
  · intro n hn cols sql hcols hsql
    by_cases hrows : r.rows = []
    · rw [hempty hrows, hrows]
      simp [tuples]
    · obtain ⟨cols', sql', hcols', hsql', hsent⟩ := hreturned n hn hrows
      obtain rfl := Except.ok.inj (hcols.symm.trans hcols')
      obtain rfl := Except.ok.inj (hsql.symm.trans hsql')
      exact hsent.pairs_eq

end

/-- An update of three rows in two chunks of the columnar channel. -/
theorem columnar_update_lines_up :
    LinesUp .double (quiet ℕ Unit (sqlDialect [] none) ⟨true, true⟩) keyed
      (.batch (.update none) [(1, 2), (3, 4), (5, 6)] 2) (idle ℕ) :=
  (statement_and_values_line_up (quiet ℕ Unit (sqlDialect [] none) ⟨true, true⟩) keyed
    (.batch (.update none) [(1, 2), (3, 4), (5, 6)] 2) (idle ℕ) rfl (by decide) sound_clean).mpr
    fun h => nomatch h.1

/-- A mapping to which no column has been added. -/
def bare : EntityMeta ℕ ℕ := ⟨['t'], [], none⟩

/-- The statement has a placeholder, and there is no value for it. -/
theorem insert_without_columns :
    ¬ LinesUp .double (quiet ℕ Unit (sqlDialect [] none) ⟨true, true⟩) bare
      (.batch .insert [7] 1) (idle ℕ) :=
  not_linesUp (sqlDialect_usesQuote [] none) ⟨rfl, rfl, List.cons_ne_nil _ _, _, rfl⟩

end Uniorm.Orm
