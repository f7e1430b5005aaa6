import Uniorm.Orm.Staging

/-! # A batch in column buffers, byte by byte

`columnar_batch_write` once more, with the buffers of the batch writer as memory: one column for each
parameter, filled with one chunk of rows after the other, and read by the backend at every `execute`.
Each call of the backend may throw, and so may each call that takes a member through its converter.
What is added up for the caller is left to `EntityMeta.columnarBatchWrite`.
-/
namespace Uniorm.Orm

open Foundation Value

universe u w

/-- What a backend does with a batch: the number of a call decides whether it throws, and the memory
of a new column is what it happens to be. -/
structure BatchBackend (E : Type w) where
  fails : ℕ → Option E
  blank : Memory
  blankIndicators : ℕ → ℤ

/-- A statement with a batch writer, the calls of `write_to_param_buffer` so far, and the parameter
sets that each `execute` so far took from the buffers. -/
structure Staging where
  columns : List ByteColumn
  finished : Bool
  paramset : ℕ
  calls : ℕ
  placed : List Placement
  executed : List (List (List SqlValue))

def Staging.sets (s : Staging) : List (List SqlValue) :=
  if s.finished then (List.range s.paramset).map fun row => s.columns.map (·.readBack row) else []

namespace Columnar
variable {R : Type u} {E : Type w} (b : BatchBackend E)

abbrev Run (E : Type w) (α : Type) : Type w := Action Staging E α

def call (effect : Staging → Staging) : Run E Unit := fun s =>
  match b.fails s.calls with
  | some e => (.error e, { s with calls := s.calls + 1 })
  | none => (.ok (), effect { s with calls := s.calls + 1 })

/-- `write_to_param_buffer` of a row of a chunk, for a parameter. -/
def writeToParam (f : Field R) (param : ℕ) (entity : R) (row : ℕ) : Run E Unit :=
  call b fun s => match s.columns[param]? with
    | some c =>
      { s with
        columns := s.columns.set param (f.writeToParamBuffer entity row c)
        placed := s.placed ++ [f.placement entity row c] }
    | none => s

def fillRows (f : Field R) (param : ℕ) : ℕ → List R → Run E Unit
  | _, [] => pure ()
  | row, entity :: rows => do
    writeToParam b f param entity row
    fillRows f param (row + 1) rows

def fillColumns (chunk : List R) : ℕ → List (Field R) → Run E Unit
  | _, [] => pure ()
  | param, f :: fields => do
    fillRows b f param 0 chunk
    fillColumns chunk (param + 1) fields

def acquireStatement : Run E Unit :=
  call b fun s => { s with columns := [], finished := false, paramset := 1 }

def prepareBatch : Run E Unit := call b fun s => { s with columns := [] }

def addColumn (type : BufferType) (count elementSize : ℕ) : Run E Unit :=
  call b fun s =>
    { s with columns := s.columns ++ [⟨type, count, elementSize, b.blank, b.blankIndicators⟩] }

def addColumns (rows : List R) (count : ℕ) : List (Field R) → Run E Unit
  | [] => pure ()
  | f :: fields => do
    addColumn b f.bufferType count (f.elementSize rows)
    addColumns rows count fields

def finish : Run E Unit := call b fun s => { s with finished := true }

def setParamsetSize (size : ℕ) : Run E Unit := call b fun s => { s with paramset := size }

/-- The backend may throw after it has taken the sets. -/
def execute : Run E Unit := fun s =>
  let s := { s with calls := s.calls + 1, executed := s.executed ++ [s.sets] }
  match b.fails (s.calls - 1) with
  | some e => (.error e, s)
  | none => (.ok (), s)

/-- A chunk that is in the buffers. `affectedRows` may throw. -/
def executeChunk (count : ℕ) : Run E ℕ := do
  execute b
  call b id
  pure count

/-- The number of parameter sets is set again only when it changes. -/
def resizeParamset (firstCount count : ℕ) : Run E Unit :=
  if count ≠ firstCount then setParamsetSize b count else pure ()

def bindWriter (fields : List (Field R)) (rows : List R) (firstCount : ℕ) : Run E Unit := do
  acquireStatement b
  -- the scan for the widest values
  call b id
  prepareBatch b
  addColumns b rows firstCount fields
  fillColumns b (EntityMeta.chunkRows rows 0 firstCount) 0 fields
  finish b
  setParamsetSize b firstCount

def columnarBatchWrite (fields : List (Field R)) (rows : List R) (batchSize : ℕ+) : Run E ℕ :=
  if rows.length = 0 then pure 0 else do
    let firstCount := min (batchSize : ℕ) rows.length
    bindWriter b fields rows firstCount
    let written ← executeChunk b firstCount
    Action.sweep rows.length batchSize (fun start count => do
      fillColumns b (EntityMeta.chunkRows rows start count) 0 fields
      resizeParamset b firstCount count
      executeChunk b count) batchSize written

def tuples (fields : List (Field R)) (rows : List R) : List (List SqlValue) :=
  rows.map fun row => fields.map (·.read row)

/-- Every write went into its place, and the executions took the values of the first `taken` rows. -/
structure Progress (fields : List (Field R)) (rows : List R) (taken : ℕ) (s : Staging) : Prop where
  placed : ∀ p ∈ s.placed, p.Inside
  executed : s.executed.flatten = tuples fields (rows.take taken)

/-- A run that did not come to its end. -/
def Broken (fields : List (Field R)) (rows : List R) (s : Staging) : Prop :=
  ∃ taken, Progress fields rows taken s

/-- A run with what is known of the statement: its columns, whether they are bound, and the number of
parameter sets. -/
structure At (fields : List (Field R)) (rows : List R) (taken : ℕ)
    (K : List ByteColumn → Bool → ℕ → Prop) (s : Staging) : Prop where
  progress : Progress fields rows taken s
  known : K s.columns s.finished s.paramset

/-- One column for each field, with room for `count` rows. -/
structure Prepared (fields : List (Field R)) (rows : List R) (count : ℕ)
    (columns : List ByteColumn) : Prop where
  length : columns.length = fields.length
  laid : ∀ (q : ℕ) f c, fields[q]? = some f → columns[q]? = some c → f.Laid rows count c

/-- The columns of the parameters before `param` hold a chunk, and the next one holds the rows before
`row` of it. -/
structure Filled (fields : List (Field R)) (rows : List R) (count : ℕ) (chunk : List R)
    (param row : ℕ) (columns : List ByteColumn) : Prop where
  prepared : Prepared fields rows count columns
  holds : ∀ (q r : ℕ) f c entity, fields[q]? = some f → columns[q]? = some c →
    chunk[r]? = some entity → q < param ∨ q = param ∧ r < row → f.Holds entity c r

section
variable {b} {fields : List (Field R)} {rows chunk : List R} {count taken param row : ℕ}
  {columns : List ByteColumn} {K K' : List ByteColumn → Bool → ℕ → Prop} {L : Bool → ℕ → Prop}

theorem Progress.broken {s : Staging} (h : Progress fields rows taken s) : Broken fields rows s :=
  ⟨taken, h⟩

theorem call_triple {effect : Staging → Staging}
    (h : ∀ s, At fields rows taken K s → At fields rows taken K' (effect s)) :
    Action.Triple (At fields rows taken K) (call b effect) (fun _ => At fields rows taken K')
      fun _ => Broken fields rows := by
  rintro s ⟨⟨hplaced, hexecuted⟩, hknown⟩
  unfold call
  cases b.fails s.calls with
  | some e => exact ⟨nofun, fun _ _ => ⟨taken, hplaced, hexecuted⟩⟩
  | none => exact ⟨fun _ _ => h _ ⟨⟨hplaced, hexecuted⟩, hknown⟩, nofun⟩

theorem Prepared.filled (h : Prepared fields rows count columns) (chunk : List R) :
    Filled fields rows count chunk 0 0 columns := by
  refine ⟨h, fun q r f c entity _ _ _ hbefore => ?_⟩
  omega

theorem Filled.next (h : Filled fields rows count chunk param chunk.length columns) :
    Filled fields rows count chunk (param + 1) 0 columns := by
  refine ⟨h.prepared, fun q r f c entity hf hc hentity hbefore => ?_⟩
  obtain ⟨hr, -⟩ := List.getElem?_eq_some_iff.mp hentity
  exact h.holds q r f c entity hf hc hentity (by omega)

/-- The member of one more row. -/
theorem Filled.write {f : Field R} {c : ByteColumn} {entity : R}
    (h : Filled fields rows count chunk param row columns) (hf : fields[param]? = some f)
    (hc : columns[param]? = some c) (hentity : chunk[row]? = some entity) (hmem : entity ∈ rows) :
    Filled fields rows count chunk param (row + 1)
      (columns.set param (f.writeToParamBuffer entity row c)) := by
  have hlaid := h.prepared.laid param f c hf hc
  have hparam := (List.getElem?_eq_some_iff.mp hc).1
  refine ⟨⟨by rw [List.length_set, h.prepared.length], ?_⟩, ?_⟩
  · intro q g d hg hd
    by_cases hq : param = q
    · subst hq
      rw [List.getElem?_set_self hparam] at hd
      obtain rfl := Option.some.inj hd
      obtain rfl := Option.some.inj (hf.symm.trans hg)
      exact hlaid.write entity row
    · rw [List.getElem?_set_ne hq] at hd
      exact h.prepared.laid q g d hg hd
  · intro q r g d other hg hd hother hbefore
    by_cases hq : param = q
    · subst hq
      rw [List.getElem?_set_self hparam] at hd
      obtain rfl := Option.some.inj hd
      obtain rfl := Option.some.inj (hf.symm.trans hg)
      by_cases hr : r = row
      · subst hr
        obtain rfl := Option.some.inj (hentity.symm.trans hother)
        exact hlaid.holds_write hmem r
      · exact hlaid.holds_other hmem hr (h.holds param r _ c other hf hc hother (by omega))
    · rw [List.getElem?_set_ne hq] at hd
      exact h.holds q r g d other hg hd hother (by omega)

theorem writeToParam_triple {f : Field R} {entity : R} (hf : fields[param]? = some f)
    (hentity : chunk[row]? = some entity) (hsub : chunk ⊆ rows) (hlen : chunk.length ≤ count) :
    Action.Triple
      (At fields rows taken fun cs fin n => Filled fields rows count chunk param row cs ∧ L fin n)
      (writeToParam b f param entity row)
      (fun _ => At fields rows taken fun cs fin n =>
        Filled fields rows count chunk param (row + 1) cs ∧ L fin n)
      fun _ => Broken fields rows := by
  apply call_triple
  rintro s ⟨hprogress, hfilled, hL⟩
  have hparam := (List.getElem?_eq_some_iff.mp hf).1
  rw [← hfilled.prepared.length] at hparam
  obtain ⟨c, hc⟩ : ∃ c, s.columns[param]? = some c := ⟨_, List.getElem?_eq_getElem hparam⟩
  obtain ⟨hrow, rfl⟩ := List.getElem?_eq_some_iff.mp hentity
  have hmem := hsub (List.getElem_mem hrow)
  have hinside := (hfilled.prepared.laid param f c hf hc).inside hmem (hrow.trans_le hlen)
  simp only [hc]
  refine ⟨⟨?_, hprogress.executed⟩, hfilled.write hf hc hentity hmem, hL⟩
  intro p hp
  rcases List.mem_append.mp hp with hold | hnew
  · exact hprogress.placed p hold
  · obtain rfl := List.mem_singleton.mp hnew
    exact hinside

variable (b taken L) in
theorem fillRows_triple {f : Field R} (hf : fields[param]? = some f) (hsub : chunk ⊆ rows)
    (hlen : chunk.length ≤ count) (row : ℕ) (hrow : row ≤ chunk.length) :
    Action.Triple
      (At fields rows taken fun cs fin n => Filled fields rows count chunk param row cs ∧ L fin n)
      (fillRows b f param row (chunk.drop row))
      (fun _ => At fields rows taken fun cs fin n =>
        Filled fields rows count chunk param chunk.length cs ∧ L fin n)
      fun _ => Broken fields rows := by
  induction hleft : chunk.length - row generalizing row with
  | zero =>
    obtain rfl : row = chunk.length := by omega
    rw [List.drop_length]
    exact Action.Triple.pure fun s hs => hs
  | succ left ih =>
    have hlt : row < chunk.length := by omega
    rw [List.drop_eq_getElem_cons hlt, fillRows]
    apply (writeToParam_triple hf (List.getElem?_eq_getElem hlt) hsub hlen).bind
    intro _
    exact ih (row + 1) hlt (by omega)

variable (b taken L) in
theorem fillColumns_triple (hsub : chunk ⊆ rows) (hlen : chunk.length ≤ count) (param : ℕ)
    (hparam : param ≤ fields.length) :
    Action.Triple
      (At fields rows taken fun cs fin n => Filled fields rows count chunk param 0 cs ∧ L fin n)
      (fillColumns b chunk param (fields.drop param))
      (fun _ => At fields rows taken fun cs fin n =>
        Filled fields rows count chunk fields.length 0 cs ∧ L fin n)
      fun _ => Broken fields rows := by
  induction hleft : fields.length - param generalizing param with
  | zero =>
    obtain rfl : param = fields.length := by omega
    rw [List.drop_length]
    exact Action.Triple.pure fun s hs => hs
  | succ left ih =>
    have hlt : param < fields.length := by omega
    rw [List.drop_eq_getElem_cons hlt, fillColumns]
    have hrows := fillRows_triple b taken L
      (List.getElem?_eq_getElem hlt) hsub hlen 0 (Nat.zero_le _)
    apply hrows.bind
    intro _
    refine (ih (param + 1) hlt (by omega)).mono ?_ (fun _ _ h => h) fun _ _ h => h
    exact fun s hs => ⟨hs.progress, hs.known.1.next, hs.known.2⟩

theorem Prepared.add (h : Prepared (fields.take param) rows count columns) {f : Field R}
    (hf : fields[param]? = some f) {c : ByteColumn} (hc : f.Laid rows count c) :
    Prepared (fields.take (param + 1)) rows count (columns ++ [c]) := by
  obtain ⟨hparam, rfl⟩ := List.getElem?_eq_some_iff.mp hf
  have hlength := h.length
  rw [List.length_take, Nat.min_eq_left hparam.le] at hlength
  refine ⟨?_, ?_⟩
  · rw [List.length_append, hlength, List.length_singleton, List.length_take,
      Nat.min_eq_left (Nat.succ_le_of_lt hparam)]
  · intro q g d hg hd
    rw [List.getElem?_take] at hg
    have hq : q < param + 1 := by
      by_contra hge
      rw [if_neg hge] at hg
      cases hg
    rw [if_pos hq] at hg
    by_cases hlast : q = param
    · subst hlast
      rw [← hlength, List.getElem?_concat_length] at hd
      obtain rfl := Option.some.inj hd
      obtain rfl := Option.some.inj ((List.getElem?_eq_getElem hparam).symm.trans hg)
      exact hc
    · have hbefore : q < param := by omega
      rw [List.getElem?_append_left (by omega)] at hd
      apply h.laid q g d _ hd
      rw [List.getElem?_take, if_pos hbefore, hg]

theorem addColumns_triple (param : ℕ) (hparam : param ≤ fields.length) :
    Action.Triple
      (At fields rows taken fun cs _ _ => Prepared (fields.take param) rows count cs)
      (addColumns b rows count (fields.drop param))
      (fun _ => At fields rows taken fun cs _ _ => Prepared fields rows count cs)
      fun _ => Broken fields rows := by
  induction hleft : fields.length - param generalizing param with
  | zero =>
    obtain rfl : param = fields.length := by omega
    rw [List.drop_length, List.take_length]
    exact Action.Triple.pure fun s hs => hs
  | succ left ih =>
    have hlt : param < fields.length := by omega
    rw [List.drop_eq_getElem_cons hlt, addColumns]
    refine Action.Triple.bind ?_ fun _ => ih (param + 1) hlt (by omega)
    apply call_triple
    intro s hs
    exact ⟨⟨hs.progress.placed, hs.progress.executed⟩,
      hs.known.add (List.getElem?_eq_getElem hlt) ⟨rfl, rfl, rfl⟩⟩

theorem Filled.sets_eq (h : Filled fields rows count chunk fields.length 0 columns) {s : Staging}
    (hcolumns : s.columns = columns) (hfinished : s.finished = true)
    (hparamset : s.paramset = chunk.length) : s.sets = tuples fields chunk := by
  rw [Staging.sets, if_pos hfinished, hparamset, hcolumns, tuples]
  apply List.ext_getElem
  · simp
  · intro r hr _
    have hlt : r < chunk.length := by simpa using hr
    rw [List.getElem_map, List.getElem_map, List.getElem_range]
    apply List.ext_getElem
    · rw [List.length_map, List.length_map, h.prepared.length]
    · intro q hq _
      rw [List.length_map] at hq
      have hq' : q < fields.length := by rwa [← h.prepared.length]
      rw [List.getElem_map, List.getElem_map]
      exact (h.holds q r _ _ _ (List.getElem?_eq_getElem hq') (List.getElem?_eq_getElem hq)
        (List.getElem?_eq_getElem hlt) (.inl hq')).value

def Loaded (fields : List (Field R)) (rows : List R) (count : ℕ) (chunk : List R)
    (columns : List ByteColumn) (finished : Bool) (paramset : ℕ) : Prop :=
  Filled fields rows count chunk fields.length 0 columns ∧ finished = true ∧
    paramset = chunk.length

variable (b chunk count) in
theorem executeChunk_triple (hchunk : tuples fields (rows.take taken) ++ tuples fields chunk =
      tuples fields (rows.take (taken + chunk.length))) :
    Action.Triple (At fields rows taken (Loaded fields rows count chunk))
      (executeChunk b chunk.length)
      (fun _ => At fields rows (taken + chunk.length) (Loaded fields rows count chunk))
      fun _ => Broken fields rows := by
  apply Action.Triple.bind (Q := fun _ => At fields rows (taken + chunk.length)
    (Loaded fields rows count chunk))
  · rintro s ⟨⟨hplaced, hexecuted⟩, hfilled, hfinished, hparamset⟩
    have hsets := hfilled.sets_eq rfl hfinished hparamset
    have hdone : Progress fields rows (taken + chunk.length)
        { s with calls := s.calls + 1, executed := s.executed ++ [s.sets] } := by
      refine ⟨hplaced, ?_⟩
      rw [List.flatten_append, hexecuted, List.flatten_singleton, hsets, hchunk]
    unfold execute
    simp only [Nat.add_sub_cancel]
    cases b.fails s.calls with
    | some e => exact ⟨nofun, fun _ _ => hdone.broken⟩
    | none => exact ⟨fun _ _ => ⟨hdone, hfilled, hfinished, hparamset⟩, nofun⟩
  · intro _
    refine Action.Triple.bind (call_triple fun s hs => hs) fun _ => ?_
    exact Action.Triple.pure fun s hs => hs

variable (fields rows) in
theorem tuples_take_add (start count : ℕ) :
    tuples fields (rows.take start) ++ tuples fields (EntityMeta.chunkRows rows start count) =
      tuples fields (rows.take (start + count)) := by
  rw [tuples, tuples, tuples, ← List.map_append, EntityMeta.chunkRows, ← List.take_add]

/-- Between two chunks the statement is bound, and only after the last one may it be set to fewer
rows than the first chunk has. -/
def Between (fields : List (Field R)) (rows : List R) (count start : ℕ) (columns : List ByteColumn)
    (finished : Bool) (paramset : ℕ) : Prop :=
  Prepared fields rows count columns ∧ finished = true ∧ (start < rows.length → paramset = count)

end

variable (fields : List (Field R)) (rows : List R) (batchSize : ℕ+)

theorem chunk_triple {start first : ℕ} (hstart : start < rows.length)
    (hfirst : min (batchSize : ℕ) rows.length = first) :
    Action.Triple (At fields rows start (Between fields rows first start))
      (do
        fillColumns b (EntityMeta.chunkRows rows start (min (batchSize : ℕ) (rows.length - start))) 0
          fields
        resizeParamset b first (min (batchSize : ℕ) (rows.length - start))
        executeChunk b (min (batchSize : ℕ) (rows.length - start)))
      (fun _ => At fields rows (start + min (batchSize : ℕ) (rows.length - start))
        (Between fields rows first (start + min (batchSize : ℕ) (rows.length - start))))
      fun _ => Broken fields rows := by
  obtain ⟨count, hcount⟩ : ∃ count, min (batchSize : ℕ) (rows.length - start) = count := ⟨_, rfl⟩
  have hstep := batchSize.pos
  -- Only the last chunk is shorter than the first one.
  have hfull : start + count < rows.length → count = first := by omega
  have hlen : (EntityMeta.chunkRows rows start count).length = count := by
    rw [EntityMeta.chunkRows, List.length_take, List.length_drop]
    omega
  have hsub : EntityMeta.chunkRows rows start count ⊆ rows :=
    List.Subset.trans (List.take_subset _ _) (List.drop_subset _ _)
  have hnext := tuples_take_add fields rows start count
  rw [hcount]
  generalize EntityMeta.chunkRows rows start count = chunk at *
  subst hlen
  have hshort : chunk.length ≤ first := by omega
  have hfill := fillColumns_triple b start (fun fin n => fin = true ∧ n = first) hsub hshort 0
    (Nat.zero_le fields.length)
  refine Action.Triple.bind (hfill.mono ?_ (fun _ _ h => h) fun _ _ h => h) fun _ => ?_
  · exact fun s hs => ⟨hs.progress, hs.known.1.filled chunk, hs.known.2.1, hs.known.2.2 hstart⟩
  apply Action.Triple.bind (Q := fun _ => At fields rows start (Loaded fields rows first chunk))
  · unfold resizeParamset
    split
    · apply call_triple
      intro s hs
      exact ⟨⟨hs.progress.placed, hs.progress.executed⟩, hs.known.1, hs.known.2.1, rfl⟩
    · rename_i hsame
      apply Action.Triple.pure
      intro s hs
      exact ⟨hs.progress, hs.known.1, hs.known.2.1, hs.known.2.2.trans (not_not.mp hsame).symm⟩
  · intro _
    refine (executeChunk_triple b chunk first hnext).mono (fun _ h => h) ?_ fun _ _ h => h
    intro _ s hs
    exact ⟨hs.progress, hs.known.1.prepared, hs.known.2.1, fun hmore => hs.known.2.2.trans (hfull hmore)⟩

/-- The columns are laid out for the whole sweep, and hold its first chunk. -/
theorem bindWriter_triple {first : ℕ} (hfirst : first ≤ rows.length) :
    Action.Triple (At fields rows 0 fun _ _ _ => True) (bindWriter b fields rows first)
      (fun _ => At fields rows 0 (Loaded fields rows first (EntityMeta.chunkRows rows 0 first)))
      fun _ => Broken fields rows := by
  unfold bindWriter
  have hlen : (EntityMeta.chunkRows rows 0 first).length = first := by
    rw [EntityMeta.chunkRows, List.length_take, List.length_drop]
    omega
  have hsub : EntityMeta.chunkRows rows 0 first ⊆ rows := List.take_subset _ _
  generalize EntityMeta.chunkRows rows 0 first = chunk at *
  refine Action.Triple.bind (Q := fun _ => At fields rows 0 fun _ _ _ => True) ?_ fun _ => ?_
  · exact call_triple fun s hs => ⟨⟨hs.progress.placed, hs.progress.executed⟩, trivial⟩
  refine Action.Triple.bind (call_triple fun s hs => hs) fun _ => ?_
  refine Action.Triple.bind (Q := fun _ => At fields rows 0 fun cs _ _ =>
    Prepared (fields.take 0) rows first cs) ?_ fun _ => ?_
  · apply call_triple
    intro s hs
    exact ⟨⟨hs.progress.placed, hs.progress.executed⟩, rfl, fun q f c hf => by simp at hf⟩
  refine (addColumns_triple 0 (Nat.zero_le _)).bind fun _ => ?_
  have hfill := fillColumns_triple b 0 (fun _ _ => True) hsub hlen.le 0 (Nat.zero_le fields.length)
  refine Action.Triple.bind (hfill.mono ?_ (fun _ _ h => h) fun _ _ h => h) fun _ => ?_
  · exact fun s hs => ⟨hs.progress, hs.known.filled chunk, trivial⟩
  refine Action.Triple.bind (Q := fun _ => At fields rows 0 fun cs fin _ =>
    Filled fields rows first chunk fields.length 0 cs ∧ fin = true) ?_ fun _ => ?_
  · exact call_triple fun s hs => ⟨⟨hs.progress.placed, hs.progress.executed⟩, hs.known.1, rfl⟩
  apply call_triple
  intro s hs
  exact ⟨⟨hs.progress.placed, hs.progress.executed⟩, hs.known.1, hs.known.2, hlen.symm⟩

theorem columnarBatchWrite_triple :
    Action.Triple (At fields rows 0 fun _ _ _ => True) (columnarBatchWrite b fields rows batchSize)
      (fun _ => Progress fields rows rows.length) fun _ => Broken fields rows := by
  unfold columnarBatchWrite
  by_cases hrows : rows.length = 0
  · rw [if_pos hrows]
    apply Action.Triple.pure
    intro s hs
    rw [hrows]
    exact hs.progress
  rw [if_neg hrows]
  obtain ⟨first, hfirst⟩ : ∃ first, min (batchSize : ℕ) rows.length = first := ⟨_, rfl⟩
  have hlen : (EntityMeta.chunkRows rows 0 first).length = first := by
    rw [EntityMeta.chunkRows, List.length_take, List.length_drop]
    omega
  have hstep := batchSize.pos
  rw [hfirst]
  refine (bindWriter_triple b fields rows (by omega)).bind fun _ => ?_
  have hnext := tuples_take_add fields rows 0 first
  have hsend := executeChunk_triple b (EntityMeta.chunkRows rows 0 first) first
    (by rw [hlen]; exact hnext)
  rw [hlen, Nat.zero_add] at hsend
  refine hsend.bind fun written => ?_
  refine Action.Triple.mono (Action.Triple.sweep (I := fun start _ => At fields rows start
    (Between fields rows first start)) ?_ batchSize written) ?_ ?_ fun _ _ h => h
  · exact fun start total hstart => chunk_triple b fields rows batchSize hstart hfirst
  · intro s hs
    rw [hfirst]
    exact ⟨hs.progress, hs.known.1.prepared, hs.known.2.1, fun _ => hs.known.2.2.trans hlen⟩
  · exact fun _ s hs => hs.progress

/-- Rows bound one by one have the same parameter sets. -/
theorem tuples_eq (m : EntityMeta R SqlValue) (cols : List m.Index) (field : m.Index → Field R)
    (hfield : ∀ i, ∃ column isPrimaryKey, m.col i = (field i).toColumn column isPrimaryKey) :
    (Orm.tuples m cols rows).map (List.map (Option.getD · .null)) = tuples (cols.map field) rows := by
  rw [Orm.tuples, tuples, List.map_map]
  apply List.map_congr_left
  intro row _
  rw [Function.comp_apply, EntityMeta.extractRow, List.map_map, List.map_map]
  apply List.map_congr_left
  intro i _
  obtain ⟨column, isPrimaryKey, hcol⟩ := hfield i
  rw [Function.comp_apply, Function.comp_apply, hcol, Field.read_eq]
  rfl

/-- However a batch is divided and wherever it breaks off: every write of a member went into the
place of its row, and the parameter sets the backend took are the values of the rows, from the first
one on; of all rows, when the batch was not broken off. -/
theorem columnar_staging_agrees (s : Staging) :
    let r := columnarBatchWrite b fields rows batchSize { s with placed := [], executed := [] }
    (∀ p ∈ r.2.placed, p.Inside) ∧ ∃ taken,
      r.2.executed.flatten = tuples fields (rows.take taken) ∧ ∀ n, r.1 = .ok n → taken = rows.length := by
  intro r
  obtain ⟨hok, herror⟩ := columnarBatchWrite_triple b fields rows batchSize
    { s with placed := [], executed := [] } ⟨⟨fun p hp => absurd hp List.not_mem_nil, rfl⟩, trivial⟩
  cases hr : r.1 with
  | ok n =>
    have hdone := hok n hr
    exact ⟨hdone.placed, rows.length, hdone.executed, fun _ _ => rfl⟩
  | error e =>
    obtain ⟨taken, hdone⟩ := herror e hr
    exact ⟨hdone.placed, taken, hdone.executed, nofun⟩

end Columnar

end Uniorm.Orm
