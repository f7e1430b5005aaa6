import Uniorm.Foundation.Lists
import Uniorm.Libpq.Cells

/-! # Reading a result in blocks

Whatever the size of a block, the rows of a result come out once each and in their order, with every
value as its cell says, whether a loop of `fetch_rows` reads them or a `result_set`.
-/
namespace Uniorm.Libpq

open Foundation Schema Value

namespace Yields
variable {α β γ : Type} {x : Reading α} {y : Reading β} {r : Option α} {r' : Option β}
  {long long' : List LongRead}

/-- One read after the other. -/
theorem both (g : α → β → γ) (hx : Yields x r long) (hy : Yields y r' long') :
    Yields (do
        let a ← x
        let b ← y
        Pure.pure (g a b))
      (do
        let a ← r
        let b ← r'
        some (g a b)) (long ++ long') := by
  cases r with
  | none => exact hx.bind_none
  | some a =>
    apply hx.bind
    cases r' with
    | none => exact hy.bind_none
    | some b => exact hy.bind_pure

end Yields

section
variable (strtod : List UInt8 → Option (BitVec 64))

/-- What decides which bytes the values of each column leave. -/
def Statement.shapes (s : Statement) : List (Option (BufferKind × ℕ)) :=
  s.slots.map (Option.map ColumnBuffer.shape)

structure Statement.Between (s : Statement) (answer : PGresult)
    (shapes : List (Option (BufferKind × ℕ))) : Prop where
  slots : s.slots.length = answer.fields.length
  answer : s.answer = answer
  shapes : s.shapes = shapes
  ready : s.Ready

/-- A statement that has fetched a block: each place of a row holds its cell. -/
structure Statement.Loaded (s₀ s : Statement) (answer : PGresult)
    (shapes : List (Option (BufferKind × ℕ))) : Prop where
  between : s.Between answer shapes
  blockStart : s.blockStart = s₀.cursor
  cursor : s.cursor = s₀.cursor + s.rowsFetched
  nonempty : 0 < s.rowsFetched
  last : s.cursor ≤ answer.tuples.length
  placed : ∀ field row b, s.slots[field]? = some (some b) → row < s.rowsFetched →
    s.Placed strtod field row b

variable {strtod} {s s' : Statement} {answer : PGresult}
  {shapes : List (Option (BufferKind × ℕ))}

theorem Statement.Written.shapes_eq {first rows : ℕ} {before after : List (Option ColumnBuffer)}
    (h : s.Written strtod first rows before after) :
    after.map (Option.map ColumnBuffer.shape) = before.map (Option.map ColumnBuffer.shape) := by
  apply List.ext_getElem?
  intro i
  rw [List.getElem?_map, List.getElem?_map]
  cases hslot : before[i]? with
  | none =>
    have hlen := List.getElem?_eq_none_iff.mp hslot
    rw [← h.length] at hlen
    rw [List.getElem?_eq_none_iff.mpr hlen]
  | some slot =>
    cases slot with
    | none => rw [h.unbound i hslot]
    | some b₀ =>
      obtain ⟨b, hb, hfilled⟩ := h.bound i b₀ hslot
      rw [hb]
      simp only [Option.map_some, ColumnBuffer.shape, hfilled.kind, hfilled.capacity]

theorem Statement.Fetched.loaded (h : s.Between answer shapes)
    (hmore : s.cursor < answer.tuples.length)
    (hfetched : s.Fetched strtod s' s.advance.rowsFetched) : s.Loaded strtod s' answer shapes := by
  have hready := hfetched.ready h.ready
  have hrows : s.advance.rowsFetched = min (s.rowArraySize : ℕ) (answer.tuples.length - s.cursor) := by
    rw [← h.answer]
    rfl
  have hpos := s.rowArraySize.pos
  have hanswer : s'.answer = answer := hfetched.answer.trans h.answer
  have hlength : s'.slots.length = answer.fields.length := hfetched.written.length.trans h.slots
  have hcursor := hfetched.cursor
  have hcount := hfetched.rowsFetched
  refine ⟨⟨hlength, hanswer, hfetched.written.shapes_eq.trans h.shapes, hready⟩, hfetched.blockStart,
    by omega, by omega, by omega, ?_⟩
  intro field row b hb hrow
  obtain ⟨hroomy, hroom⟩ := hready field b hb
  rw [hfetched.rowArraySize] at hroom
  refine ⟨hb, ?_, by omega, hroomy, ?_⟩
  · rw [hanswer, ← hlength]
    exact (List.getElem?_eq_some_iff.mp hb).1
  · cases hslot : s.slots[field]? with
    | none =>
      have hlen := List.getElem?_eq_none_iff.mp hslot
      rw [← hfetched.written.length] at hlen
      rw [List.getElem?_eq_none_iff.mpr hlen] at hb
      cases hb
    | some slot =>
      cases slot with
      | none =>
        rw [hfetched.written.unbound field hslot] at hb
        cases Option.some.inj hb
      | some b₀ =>
        obtain ⟨c, hc, hfilled⟩ := hfetched.written.bound field b₀ hslot
        obtain rfl := Option.some.inj (Option.some.inj (hc.symm.trans hb))
        obtain ⟨content, hcontent, hholds⟩ := hfilled.places row (by omega)
        rw [Nat.zero_add] at hcontent
        refine ⟨content, ?_, hholds⟩
        rw [Statement.content_congr hfilled.kind hfilled.capacity]
        unfold Statement.content at hcontent ⊢
        rw [hfetched.answer, hfetched.blockStart]
        exact hcontent

variable (strtod) in
def BadCell (answer : PGresult) (shapes : List (Option (BufferKind × ℕ))) (tuple : ℕ) : Prop :=
  ∃ field b, shapes[field]? = some (some b.shape) ∧
    ∃ e, cellContent strtod b (field + 1) (answer.native field) (answer.cell tuple field) = .error e

variable (strtod) in
/-- A fetch loads the next rows, unless one of their cells is not taken. -/
theorem Statement.Between.fetch (h : s.Between answer shapes)
    (hmore : s.cursor < answer.tuples.length) :
    (∃ s', s.fetch strtod = .ok (some s') ∧ s.Loaded strtod s' answer shapes) ∨
      ∃ e, s.fetch strtod = .error e ∧ e ≠ .overrun ∧
        ∃ tuple, s.cursor ≤ tuple ∧ tuple < answer.tuples.length ∧
          BadCell strtod answer shapes tuple := by
  have hanswer := h.answer
  rcases s.fetch_spec strtod h.ready (by rwa [hanswer]) with
    ⟨s', hfetch, hfetched⟩ | ⟨e, field, b, row, hrow, hfetch, hb, hcontent⟩
  · exact .inl ⟨s', hfetch, hfetched.loaded h hmore⟩
  · right
    have hne : e ≠ .overrun := by
      rintro rfl
      exact content_ne_overrun strtod hcontent
    refine ⟨e, hfetch, hne, s.cursor + row, by omega, ?_, field, b, ?_, e, ?_⟩
    · simp only [advance, hanswer] at hrow
      omega
    · rw [← h.shapes, Statement.shapes, List.getElem?_map, hb]
      rfl
    · rw [← hanswer]
      exact hcontent

variable (strtod) in
theorem Statement.Between.fetch_last (h : s.Between answer shapes)
    (hlast : answer.tuples.length ≤ s.cursor) : s.fetch strtod = .ok none := by
  unfold Statement.fetch
  rw [h.answer, if_pos hlast]

variable {b : ColumnBuffer} {column : ℕ} {native : PgType} {cell : Option (List UInt8)}
  {text : List UInt8} {e : ReadError}

/-- What a buffer does not take says nothing to the member that has bound it. -/
theorem typedValue_of_error {t : PlainType} (hkind : b.kind = fieldKind t)
    (h : cellBytes strtod b column native text = .error e) :
    typedValue strtod t native text = none := by
  unfold cellBytes at h
  rw [hkind] at h
  cases t with
  | bool =>
    rw [typedValue, intOf_of_error h]
    rfl
  | int16 =>
    rw [typedValue, intOf_of_error h]
    rfl
  | int32 =>
    rw [typedValue, intOf_of_error h]
    rfl
  | int64 =>
    cases hvalue : wholeInteger text with
    | error e' =>
      rw [typedValue, hvalue]
      rfl
    | ok value =>
      simp only [fieldKind, hvalue] at h
      cases h
  | double =>
    cases hvalue : strtod text with
    | none => exact hvalue
    | some value =>
      simp only [fieldKind, hvalue] at h
      cases h
  | bytes =>
    cases hheld : bytesOf text (native = .bytea) with
    | error e' =>
      rw [typedValue, hheld]
      rfl
    | ok held =>
      simp only [fieldKind, hheld] at h
      cases h
  | string | timestamp => cases h

theorem memberValue_of_error {m : MemberType} (hkind : b.kind = fieldKind m.representable.dbType)
    (h : cellContent strtod b column native cell = .error e) :
    memberValue strtod m native cell = none := by
  cases cell with
  | none => cases h
  | some text =>
    cases m with
    | required u =>
      have hvalue := typedValue_of_error (t := u.dbType) hkind h
      rw [memberValue, representedValue, hvalue]
      rfl
    | optional u =>
      have hvalue := typedValue_of_error (t := u.dbType) hkind h
      rw [memberValue, representedValue, hvalue]
      rfl

theorem cellValue_of_error {kind : SlotKind} (hkind : b.kind = kind.bufferKind)
    (h : cellContent strtod b column native cell = .error e) :
    cellValue strtod kind native cell = none := by
  cases cell with
  | none => cases h
  | some text =>
    change cellBytes strtod b column native text = .error e at h
    unfold cellBytes at h
    rw [hkind] at h
    cases kind with
    | boolean =>
      rw [cellValue, dynamicValue, intOf_of_error h]
      rfl
    | integer =>
      cases hvalue : wholeInteger text with
      | error e' =>
        rw [cellValue, dynamicValue, hvalue]
        rfl
      | ok value =>
        simp only [SlotKind.bufferKind, hvalue] at h
        cases h
    | floating =>
      cases hvalue : strtod text with
      | none =>
        rw [cellValue, dynamicValue, hvalue]
        rfl
      | some value =>
        simp only [SlotKind.bufferKind, hvalue] at h
        cases h
    | bytes =>
      cases hheld : bytesOf text (native = .bytea) with
      | error e' =>
        rw [cellValue, dynamicValue, hheld]
        rfl
      | ok held =>
        simp only [SlotKind.bufferKind, hheld] at h
        cases h
    | text | ts | dt | tm => cases h

variable (strtod) in
def fieldsOf (answer : PGresult) (tuple : ℕ) : (bindings : List Binding) → Option (Fields bindings)
  | [] => some ()
  | b :: bindings => do
    let value ← memberValue strtod b.type (answer.native (b.column - 1))
      (answer.cell tuple (b.column - 1))
    let values ← fieldsOf answer tuple bindings
    some (value, values)

def fieldShape (answer : PGresult) (b : Binding) : BufferKind × ℕ :=
  (fieldBuffer b.type.representable.dbType answer.columnMeta[b.column - 1]? 0).shape

def fieldsLong (answer : PGresult) (bindings : List Binding) (tuple : ℕ) : List LongRead :=
  bindings.flatMap fun b => longRead (fieldShape answer b) (answer.native (b.column - 1)) tuple
    b.column (answer.cell tuple (b.column - 1))

structure FieldsBound (answer : PGresult) (bindings : List Binding)
    (shapes : List (Option (BufferKind × ℕ))) : Prop where
  placed : ∀ b ∈ bindings, 0 < b.column ∧
    shapes[b.column - 1]? = some (some (fieldShape answer b))
  only : ∀ field shape, shapes[field]? = some (some shape) →
    ∃ b ∈ bindings, b.column = field + 1 ∧ fieldShape answer b = shape

variable {bindings : List Binding} {s₀ : Statement} {row tuple : ℕ}

theorem Statement.Loaded.placed_of_shape (h : s₀.Loaded strtod s answer shapes) {field : ℕ}
    {shape : BufferKind × ℕ} (hshape : shapes[field]? = some (some shape))
    (hrow : row < s.rowsFetched) : ∃ b, s.Placed strtod field row b ∧ b.shape = shape := by
  rw [← h.between.shapes, Statement.shapes, List.getElem?_map] at hshape
  cases hslot : s.slots[field]? with
  | none =>
    rw [hslot] at hshape
    cases hshape
  | some slot =>
    cases slot with
    | none =>
      rw [hslot] at hshape
      cases Option.some.inj hshape
    | some b =>
      rw [hslot] at hshape
      exact ⟨b, h.placed field row b hslot hrow, Option.some.inj (Option.some.inj hshape)⟩

theorem Statement.Loaded.finalize_spec (h : s₀.Loaded strtod s answer shapes)
    (hrow : row < s.rowsFetched) {b : Binding} (hcolumn : 0 < b.column)
    (hshape : shapes[b.column - 1]? = some (some (fieldShape answer b))) :
    Yields (s.finalize b.type b.column row)
      (memberValue strtod b.type (answer.native (b.column - 1))
        (answer.cell (s₀.cursor + row) (b.column - 1)))
      (longRead (fieldShape answer b) (answer.native (b.column - 1)) (s₀.cursor + row) b.column
        (answer.cell (s₀.cursor + row) (b.column - 1))) := by
  obtain ⟨buffer, hplaced, hbuffer⟩ := h.placed_of_shape hshape hrow
  have hkind : buffer.kind = fieldKind b.type.representable.dbType := congrArg Prod.fst hbuffer
  have hread := hplaced.finalize_spec b.type hkind
  rwa [hbuffer, h.between.answer, h.blockStart, Nat.sub_add_cancel hcolumn] at hread

/-- The fields of a row come out as its cells say. -/
theorem Statement.Loaded.fillInto_spec (h : s₀.Loaded strtod s answer shapes)
    (hrow : row < s.rowsFetched)
    (hbound : ∀ b ∈ bindings, 0 < b.column ∧
      shapes[b.column - 1]? = some (some (fieldShape answer b))) :
    Yields (s.fillInto row bindings) (fieldsOf strtod answer (s₀.cursor + row) bindings)
      (fieldsLong answer bindings (s₀.cursor + row)) := by
  induction bindings with
  | nil => exact Yields.pure _
  | cons b bindings ih =>
    obtain ⟨hcolumn, hshape⟩ := hbound b List.mem_cons_self
    have hvalue := h.finalize_spec hrow hcolumn hshape
    have hvalues := ih fun b hb => hbound b (List.mem_cons_of_mem _ hb)
    exact hvalue.both Prod.mk hvalues

theorem Statement.Loaded.fillBlock_spec (h : s₀.Loaded strtod s answer shapes)
    (hbound : FieldsBound answer bindings shapes) {rows : ℕ} (hrows : row + rows ≤ s.rowsFetched) :
    Yields (s.fillBlock bindings row rows)
      ((List.range' (s₀.cursor + row) rows).mapM fun tuple => fieldsOf strtod answer tuple bindings)
      ((List.range' (s₀.cursor + row) rows).flatMap (fieldsLong answer bindings)) := by
  induction rows generalizing row with
  | zero => exact Yields.pure _
  | succ rows ih =>
    have hfirst : row < s.rowsFetched := by omega
    have hrest : row + 1 + rows ≤ s.rowsFetched := by omega
    have hboth := (h.fillInto_spec hfirst hbound.placed).both List.cons (ih hrest)
    rw [List.range'_succ, List.mapM_cons, List.flatMap_cons, Nat.add_assoc]
    exact hboth

theorem fieldsOf_of_badCell (hbound : FieldsBound answer bindings shapes)
    (h : BadCell strtod answer shapes tuple) : fieldsOf strtod answer tuple bindings = none := by
  obtain ⟨field, b, hshape, e, hcontent⟩ := h
  obtain ⟨binding, hmem, hcolumn, hbinding⟩ := hbound.only field b.shape hshape
  have hvalue : memberValue strtod binding.type (answer.native (binding.column - 1))
      (answer.cell tuple (binding.column - 1)) = none := by
    rw [hcolumn, Nat.add_sub_cancel]
    exact memberValue_of_error (congrArg Prod.fst hbinding).symm hcontent
  clear hbound
  induction bindings with
  | nil => cases hmem
  | cons first bindings ih =>
    rw [fieldsOf]
    rcases List.mem_cons.mp hmem with rfl | hrest
    · rw [hvalue]
      rfl
    · rw [ih hrest]
      cases memberValue strtod first.type (answer.native (first.column - 1))
        (answer.cell tuple (first.column - 1)) <;> rfl

variable (strtod) in
/-- The loop of `fetch_rows` reads the rows that are left. -/
theorem fetchLoop_spec (h : s.Between answer shapes) (hbound : FieldsBound answer bindings shapes)
    {left : ℕ} (hleft : answer.tuples.length - s.cursor = left) :
    Yields (fetchLoop strtod bindings s)
      ((List.range' s.cursor left).mapM fun tuple => fieldsOf strtod answer tuple bindings)
      ((List.range' s.cursor left).flatMap (fieldsLong answer bindings)) := by
  induction left using Nat.strong_induction_on generalizing s with
  | _ left ih =>
    rw [fetchLoop]
    by_cases hmore : s.cursor < answer.tuples.length
    · rcases h.fetch strtod hmore with
        ⟨s', hfetch, hloaded⟩ | ⟨e, hfetch, hne, tuple, hlow, hhigh, hbad⟩
      · have hsome := hloaded.nonempty
        have hlast := hloaded.last
        have hcursor := hloaded.cursor
        have hall : 0 + s'.rowsFetched ≤ s'.rowsFetched := (Nat.zero_add _).le
        have hblock := hloaded.fillBlock_spec hbound hall
        have hmore' := ih (left - s'.rowsFetched) (by omega) hloaded.between (by omega)
        have hboth := hblock.both (· ++ ·) hmore'
        have hrange : List.range' s.cursor left =
            List.range' (s.cursor + 0) s'.rowsFetched ++
              List.range' s'.cursor (left - s'.rowsFetched) := by
          rw [hcursor, Nat.add_zero, List.range'_append_1]
          congr 1
          omega
        rw [hrange, List.mapM_append, List.flatMap_append]
        split
        · rename_i e hfail
          rw [hfetch] at hfail
          cases hfail
        · rename_i hnone
          rw [hfetch] at hnone
          cases hnone
        · rename_i s'' hsome'
          rw [hfetch] at hsome'
          obtain rfl := Option.some.inj (Except.ok.inj hsome')
          exact hboth
      · have hmem : tuple ∈ List.range' s.cursor left := by
          rw [List.mem_range'_1]
          omega
        rw [mapM_eq_none hmem (fieldsOf_of_badCell hbound hbad)]
        split
        · rename_i e' hfail
          rw [hfetch] at hfail
          obtain rfl := Except.error.inj hfail
          exact Yields.throw hne
        · rename_i hnone
          rw [hfetch] at hnone
          cases hnone
        · rename_i s'' hsome'
          rw [hfetch] at hsome'
          cases hsome'
    · have hzero : left = 0 := by omega
      have hlast := h.fetch_last strtod (Nat.le_of_not_lt hmore)
      rw [hzero]
      split
      · rename_i e' hfail
        rw [hlast] at hfail
        cases hfail
      · exact Yields.pure _
      · rename_i s'' hsome'
        rw [hlast] at hsome'
        cases hsome'

def Statement.bindAll : List (ℕ × ColumnBuffer) → Statement → Except ReadError Statement
  | [], s => .ok s
  | (column, buffer) :: binds, s => do
    let s ← s.bindColumn column buffer
    bindAll binds s

theorem bindFields_eq (infos : List ColumnInfo) (rows : ℕ) (bindings : List Binding) (s : Statement) :
    Statement.bindFields infos rows bindings s = Statement.bindAll (bindings.map fun b =>
      (b.column, fieldBuffer b.type.representable.dbType infos[b.column - 1]? rows)) s := by
  induction bindings generalizing s with
  | nil => rfl
  | cons b bindings ih =>
    rw [Statement.bindFields, List.map_cons, Statement.bindAll]
    congr 1
    funext s'
    exact ih s'

/-- The buffers of a `result_set` for the columns from one on. -/
def columnBuffers (rows : ℕ) : ℕ → List ColumnInfo → List (ℕ × ColumnBuffer)
  | _, [] => []
  | column, info :: infos => (column, columnBuffer info rows) :: columnBuffers rows (column + 1) infos

theorem Statement.bindColumn_eq_ok {buffer : ColumnBuffer}
    (h : s.bindColumn column buffer = .ok s') :
    0 < column ∧ s.slots[column - 1]? = some none ∧
      s' = { s with slots := s.slots.set (column - 1) (some buffer) } := by
  unfold Statement.bindColumn at h
  split at h
  · cases h
  · split at h
    · cases h
    · rename_i hrange hfree
      have hlt : column - 1 < s.slots.length := by omega
      refine ⟨by omega, ?_, (Except.ok.inj h).symm⟩
      rw [List.getElem?_eq_getElem hlt] at hfree ⊢
      rw [Option.join_some, Bool.not_eq_true, Option.isSome_eq_false_iff, Option.isNone_iff_eq_none]
        at hfree
      rw [hfree]

theorem Statement.bindColumn_of_free {buffer : ColumnBuffer} (hcolumn : 0 < column)
    (hfree : s.slots[column - 1]? = some none) :
    s.bindColumn column buffer =
      .ok { s with slots := s.slots.set (column - 1) (some buffer) } := by
  have hlt := (List.getElem?_eq_some_iff.mp hfree).1
  unfold Statement.bindColumn
  rw [if_neg (by omega), hfree, Option.join_some, Option.isSome_none, if_neg Bool.false_ne_true]

theorem bindColumns_eq (infos : List ColumnInfo) (s : Statement) :
    ResultSet.bindColumns column infos s =
      Statement.bindAll (columnBuffers s.rowArraySize column infos) s := by
  induction infos generalizing column s with
  | nil => rfl
  | cons info infos ih =>
    rw [ResultSet.bindColumns, columnBuffers, Statement.bindAll]
    cases hbind : s.bindColumn column (columnBuffer info s.rowArraySize) with
    | error e => rfl
    | ok s' =>
      obtain ⟨-, -, rfl⟩ := Statement.bindColumn_eq_ok hbind
      exact ih _

structure Statement.Bound (s : Statement) (binds : List (ℕ × ColumnBuffer)) (s' : Statement) :
    Prop where
  length : s'.slots.length = s.slots.length
  same : ∃ slots, s' = { s with slots := slots }
  nodup : (binds.map Prod.fst).Nodup
  free : ∀ bind ∈ binds, 0 < bind.1 ∧ s.slots[bind.1 - 1]? = some none
  placed : ∀ bind ∈ binds, s'.slots[bind.1 - 1]? = some (some bind.2)
  others : ∀ field : ℕ, (∀ bind ∈ binds, bind.1 ≠ field + 1) → s'.slots[field]? = s.slots[field]?

theorem Statement.bindAll_eq_ok {binds : List (ℕ × ColumnBuffer)} (h : bindAll binds s = .ok s') :
    s.Bound binds s' := by
  induction binds generalizing s with
  | nil =>
    obtain rfl := Except.ok.inj h
    exact ⟨rfl, ⟨_, rfl⟩, List.nodup_nil, fun bind hbind => absurd hbind List.not_mem_nil,
      fun bind hbind => absurd hbind List.not_mem_nil, fun _ _ => rfl⟩
  | cons first binds ih =>
    obtain ⟨s₁, hfirst, hrest⟩ := bind_eq_ok.mp h
    obtain ⟨hcolumn, hfree, rfl⟩ := bindColumn_eq_ok hfirst
    have hbound := ih hrest
    have hlt := (List.getElem?_eq_some_iff.mp hfree).1
    -- the slot of the first buffer is taken for the others
    have hne : ∀ bind ∈ binds, bind.1 ≠ first.1 := by
      intro bind hbind heq
      have htaken := (hbound.free bind hbind).2
      rw [heq, List.getElem?_set_self hlt] at htaken
      cases Option.some.inj htaken
    have hother : ∀ bind ∈ binds, s.slots[bind.1 - 1]? = some none := by
      intro bind hbind
      obtain ⟨hpos, hslot⟩ := hbound.free bind hbind
      have := hne bind hbind
      rwa [List.getElem?_set_ne (by omega)] at hslot
    obtain ⟨slots, hsame⟩ := hbound.same
    refine ⟨hbound.length.trans List.length_set, ⟨slots, hsame⟩, ?_, ?_, ?_, ?_⟩
    · rw [List.map_cons, List.nodup_cons]
      refine ⟨?_, hbound.nodup⟩
      rw [List.mem_map]
      rintro ⟨bind, hbind, heq⟩
      exact hne bind hbind heq
    · intro bind hbind
      rcases List.mem_cons.mp hbind with rfl | hbind
      · exact ⟨hcolumn, hfree⟩
      · exact ⟨(hbound.free bind hbind).1, hother bind hbind⟩
    · intro bind hbind
      rcases List.mem_cons.mp hbind with rfl | hbind
      · rw [hbound.others]
        · exact List.getElem?_set_self hlt
        · intro other hother heq
          exact hne other hother (by omega)
      · exact hbound.placed bind hbind
    · intro field hfield
      have hfirst' := hfield first List.mem_cons_self
      rw [hbound.others field fun bind hbind => hfield bind (List.mem_cons_of_mem _ hbind)]
      exact List.getElem?_set_ne (by omega)

theorem Statement.bindAll_of_free {binds : List (ℕ × ColumnBuffer)}
    (hnodup : (binds.map Prod.fst).Nodup)
    (hfree : ∀ bind ∈ binds, 0 < bind.1 ∧ s.slots[bind.1 - 1]? = some none) :
    ∃ s', bindAll binds s = .ok s' := by
  induction binds generalizing s with
  | nil => exact ⟨s, rfl⟩
  | cons first binds ih =>
    rw [List.map_cons, List.nodup_cons] at hnodup
    obtain ⟨hcolumn, hslot⟩ := hfree first List.mem_cons_self
    rw [bindAll, bindColumn_of_free hcolumn hslot]
    apply ih hnodup.2
    intro bind hbind
    obtain ⟨hpos, hslot'⟩ := hfree bind (List.mem_cons_of_mem _ hbind)
    refine ⟨hpos, ?_⟩
    have hne : bind.1 ≠ first.1 := fun heq => hnodup.1 (heq ▸ List.mem_map_of_mem hbind)
    rwa [List.getElem?_set_ne (by omega)]

theorem Statement.bindAll_ne_overrun {binds : List (ℕ × ColumnBuffer)} (h : bindAll binds s = .error e) :
    e ≠ .overrun := by
  induction binds generalizing s with
  | nil => cases h
  | cons first binds ih =>
    cases hfirst : s.bindColumn first.1 first.2 with
    | ok s₁ =>
      rw [bindAll, hfirst] at h
      exact ih h
    | error e' =>
      rw [bindAll, hfirst] at h
      obtain rfl := Except.error.inj h
      unfold bindColumn at hfirst
      split at hfirst
      · obtain rfl := Except.error.inj hfirst
        intro hbad
        cases hbad
      · split at hfirst
        · obtain rfl := Except.error.inj hfirst
          intro hbad
          cases hbad
        · cases hfirst

structure FieldsFit (answer : PGresult) (bindings : List Binding) : Prop where
  nodup : (bindings.map Binding.column).Nodup
  inRange : ∀ b ∈ bindings, 0 < b.column ∧ b.column ≤ answer.fields.length

instance : Decidable (FieldsFit answer bindings) :=
  decidable_of_iff ((bindings.map Binding.column).Nodup ∧
      ∀ b ∈ bindings, 0 < b.column ∧ b.column ≤ answer.fields.length)
    ⟨fun h => ⟨h.1, h.2⟩, fun h => ⟨h.nodup, h.inRange⟩⟩

theorem executed_slot {size field : ℕ} (h : field < answer.fields.length) :
    ((Statement.executed answer).setRowArraySize size).slots[field]? = some none := by
  change (List.replicate answer.fields.length none)[field]? = some none
  rw [List.getElem?_replicate, if_pos h]

theorem slot_of_executed {size field : ℕ} {slot : Option ColumnBuffer}
    (h : ((Statement.executed answer).setRowArraySize size).slots[field]? = some slot) :
    field < answer.fields.length ∧ slot = none := by
  change (List.replicate answer.fields.length none)[field]? = some slot at h
  rw [List.getElem?_replicate] at h
  split at h
  · rename_i hlt
    exact ⟨hlt, (Option.some.inj h).symm⟩
  · cases h

theorem rowArraySize_setRowArraySize {size : ℕ} (h : 0 < size) :
    ((s.setRowArraySize size).rowArraySize : ℕ) = size := by
  unfold Statement.setRowArraySize
  simp only [dif_pos h]
  rfl

/-- A statement whose columns have been bound is ready for its first fetch. -/
theorem Statement.Bound.between {size : ℕ} (rows : ℕ) {binds : List (ℕ × ColumnBuffer)}
    (h : ((executed answer).setRowArraySize size).Bound binds s)
    (hroomy : ∀ bind ∈ binds, bind.2.Roomy ∧ bind.2.rows = rows)
    (hrows : (((executed answer).setRowArraySize size).rowArraySize : ℕ) ≤ rows) :
    s.Between answer s.shapes ∧ s.cursor = 0 := by
  obtain ⟨slots, hsame⟩ := h.same
  have hlength : s.slots.length = answer.fields.length := h.length.trans List.length_replicate
  have hanswer : s.answer = answer := by rw [hsame]; rfl
  have hcursor : s.cursor = 0 := by rw [hsame]; rfl
  have hsize : s.rowArraySize = ((executed answer).setRowArraySize size).rowArraySize := by rw [hsame]
  refine ⟨⟨hlength, hanswer, rfl, ?_⟩, hcursor⟩
  intro field b hb
  by_cases hbind : ∃ bind ∈ binds, bind.1 = field + 1
  · obtain ⟨bind, hmem, hcolumn⟩ := hbind
    have hplaced := h.placed bind hmem
    rw [hcolumn, Nat.add_sub_cancel, hb] at hplaced
    obtain rfl := Option.some.inj (Option.some.inj hplaced)
    obtain ⟨hroom, hcount⟩ := hroomy bind hmem
    rw [hsize, hcount]
    exact ⟨hroom, hrows⟩
  · rw [h.others field fun bind hmem heq => hbind ⟨bind, hmem, heq⟩] at hb
    cases (slot_of_executed hb).2

theorem roomy_fieldBuffer (t : PlainType) (info : Option ColumnInfo) (rows : ℕ) :
    (fieldBuffer t info rows).Roomy := by
  unfold ColumnBuffer.Roomy
  cases t with
  | string =>
    change 1 ≤ stringSlot info
    unfold stringSlot
    split
    · split <;> omega
    · omega
  | bytes => exact Nat.zero_le _
  | bool | int16 | int32 | int64 | double | timestamp => exact le_refl _

/-- The fields bind their columns, and only these. -/
theorem bindFields_spec {size : ℕ} (hsize : 0 < size)
    (h : Statement.bindFields answer.columnMeta size bindings
      ((Statement.executed answer).setRowArraySize size) = .ok s) :
    FieldsFit answer bindings ∧ s.cursor = 0 ∧ s.Between answer s.shapes ∧
      FieldsBound answer bindings s.shapes := by
  rw [bindFields_eq] at h
  have hbound := Statement.bindAll_eq_ok h
  have hbetween := hbound.between size (by
    intro bind hbind
    obtain ⟨b, -, rfl⟩ := List.mem_map.mp hbind
    exact ⟨roomy_fieldBuffer _ _ _, rfl⟩) (by
    rw [rowArraySize_setRowArraySize hsize])
  have hfree : ∀ b ∈ bindings, 0 < b.column ∧ b.column - 1 < answer.fields.length := by
    intro b hb
    obtain ⟨hpos, hslot⟩ := hbound.free _ (List.mem_map_of_mem hb)
    exact ⟨hpos, (slot_of_executed hslot).1⟩
  refine ⟨⟨?_, ?_⟩, hbetween.2, hbetween.1, ⟨?_, ?_⟩⟩
  · have hnodup := hbound.nodup
    rwa [List.map_map] at hnodup
  · intro b hb
    obtain ⟨hpos, hlt⟩ := hfree b hb
    exact ⟨hpos, by omega⟩
  · intro b hb
    refine ⟨(hfree b hb).1, ?_⟩
    rw [Statement.shapes, List.getElem?_map, hbound.placed _ (List.mem_map_of_mem hb)]
    rfl
  · intro field shape hshape
    rw [Statement.shapes, List.getElem?_map] at hshape
    by_cases hbind : ∃ b ∈ bindings, b.column = field + 1
    · obtain ⟨b, hb, hcolumn⟩ := hbind
      have hplaced := hbound.placed _ (List.mem_map_of_mem hb)
      rw [hcolumn, Nat.add_sub_cancel] at hplaced
      rw [hplaced] at hshape
      refine ⟨b, hb, hcolumn, ?_⟩
      have := Option.some.inj (Option.some.inj hshape)
      rw [← this, fieldShape, hcolumn, Nat.add_sub_cancel]
      rfl
    · rw [hbound.others field (by
        intro bind hmem heq
        obtain ⟨b, hb, rfl⟩ := List.mem_map.mp hmem
        exact hbind ⟨b, hb, heq⟩)] at hshape
      cases hslot : ((Statement.executed answer).setRowArraySize size).slots[field]? with
      | none =>
        rw [hslot] at hshape
        cases hshape
      | some slot =>
        obtain ⟨-, rfl⟩ := slot_of_executed hslot
        rw [hslot] at hshape
        cases Option.some.inj hshape

/-- `fetch_rows` reads every row once, and every value again that is too long for its place. -/
theorem fetchRows_spec {size : ℕ} (hsize : 0 < size) :
    Yields (fetchRows strtod size bindings answer)
      (if FieldsFit answer bindings then
        (List.range answer.tuples.length).mapM fun tuple => fieldsOf strtod answer tuple bindings
      else none)
      ((List.range answer.tuples.length).flatMap (fieldsLong answer bindings)) := by
  unfold fetchRows
  cases hbind : Statement.bindFields answer.columnMeta size bindings
      ((Statement.executed answer).setRowArraySize size) with
  | error e =>
    have hmisfit : ¬FieldsFit answer bindings := by
      intro hfit
      rw [bindFields_eq] at hbind
      obtain ⟨s, hs⟩ := @Statement.bindAll_of_free
        ((Statement.executed answer).setRowArraySize size)
        (bindings.map fun b => (b.column,
          fieldBuffer b.type.representable.dbType answer.columnMeta[b.column - 1]? size)) (by
          rw [List.map_map]
          exact hfit.nodup) (by
          intro bind hmem
          obtain ⟨b, hb, rfl⟩ := List.mem_map.mp hmem
          obtain ⟨hpos, hle⟩ := hfit.inRange b hb
          exact ⟨hpos, executed_slot (by omega)⟩)
      rw [hs] at hbind
      cases hbind
    rw [if_neg hmisfit]
    have hfail : Yields (Action.lift (Statement.bindFields answer.columnMeta size bindings
        ((Statement.executed answer).setRowArraySize size))) none [] := by
      apply Yields.of_throws
      intro log
      refine ⟨e, hbind, ?_⟩
      rw [bindFields_eq] at hbind
      exact Statement.bindAll_ne_overrun hbind
    exact hfail.bind_none
  | ok s =>
    obtain ⟨hfit, hcursor, hbetween, hbound⟩ := bindFields_spec hsize hbind
    rw [if_pos hfit]
    apply (Yields.lift hbind).bind_nil
    have hloop := fetchLoop_spec strtod hbetween hbound rfl
    rwa [hcursor, Nat.sub_zero, ← List.range_eq_range'] at hloop

variable (strtod) in
/-- What a row says to the columns from one on. -/
def valuesOf (answer : PGresult) (tuple : ℕ) : ℕ → List SlotKind → Option (List SqlValue)
  | _, [] => some []
  | field, kind :: kinds => do
    let value ← cellValue strtod kind (answer.native field) (answer.cell tuple field)
    let values ← valuesOf answer tuple (field + 1) kinds
    some (value :: values)

def valuesLong (answer : PGresult) (tuple : ℕ) : ℕ → List ColumnInfo → List LongRead
  | _, [] => []
  | field, info :: infos =>
    longRead (columnBuffer info 0).shape (answer.native field) tuple (field + 1)
      (answer.cell tuple field) ++ valuesLong answer tuple (field + 1) infos

def PGresult.kinds (answer : PGresult) : List SlotKind :=
  answer.columnMeta.map fun info => kindFor info.type

def ColumnsBound (answer : PGresult) (shapes : List (Option (BufferKind × ℕ))) : Prop :=
  ∀ field : ℕ, shapes[field]? =
    (answer.columnMeta[field]?).map fun info => some (columnBuffer info 0).shape

theorem Statement.Loaded.valueOf_spec (h : s₀.Loaded strtod s answer shapes)
    (hbound : ColumnsBound answer shapes) (hrow : row < s.rowsFetched) {field : ℕ} {info : ColumnInfo}
    (hinfo : answer.columnMeta[field]? = some info) :
    Yields (s.valueOf (kindFor info.type) (field + 1) row)
      (cellValue strtod (kindFor info.type) (answer.native field) (answer.cell (s₀.cursor + row) field))
      (longRead (columnBuffer info 0).shape (answer.native field) (s₀.cursor + row) (field + 1)
        (answer.cell (s₀.cursor + row) field)) := by
  have hshape := hbound field
  rw [hinfo, Option.map_some] at hshape
  obtain ⟨buffer, hplaced, hbuffer⟩ := h.placed_of_shape hshape hrow
  have hkind : buffer.kind = (kindFor info.type).bufferKind := congrArg Prod.fst hbuffer
  have hread := hplaced.valueOf_spec (kindFor info.type) hkind
  rwa [hbuffer, h.between.answer, h.blockStart] at hread

theorem Statement.Loaded.valuesFrom_spec (h : s₀.Loaded strtod s answer shapes)
    (hbound : ColumnsBound answer shapes) (row : ℕ) (hrow : row < s.rowsFetched) (field : ℕ)
    {infos : List ColumnInfo} (hinfos : answer.columnMeta.drop field = infos) :
    Yields (s.valuesFrom row (field + 1) (infos.map fun info => kindFor info.type))
      (valuesOf strtod answer (s₀.cursor + row) field (infos.map fun info => kindFor info.type))
      (valuesLong answer (s₀.cursor + row) field infos) := by
  induction infos generalizing field with
  | nil => exact Yields.pure _
  | cons info infos ih =>
    have hinfo : answer.columnMeta[field]? = some info := by
      rw [← List.head?_drop, hinfos]
      rfl
    have hrest : answer.columnMeta.drop (field + 1) = infos := by
      rw [← List.tail_drop, hinfos]
      rfl
    exact (h.valueOf_spec hbound hrow hinfo).both List.cons (ih (field + 1) hrest)

theorem valuesOf_of_badCell (hbound : ColumnsBound answer shapes)
    (h : BadCell strtod answer shapes tuple) : valuesOf strtod answer tuple 0 answer.kinds = none := by
  obtain ⟨field, b, hshape, e, hcontent⟩ := h
  rw [hbound field] at hshape
  obtain ⟨info, hinfo, hbuffer⟩ := Option.map_eq_some_iff.mp hshape
  have hkind : b.kind = (kindFor info.type).bufferKind :=
    (congrArg Prod.fst (Option.some.inj hbuffer)).symm
  have hvalue := cellValue_of_error hkind hcontent
  -- the columns from one on, up to the bad one
  have hfrom : ∀ first infos, answer.columnMeta.drop first = infos → first ≤ field →
      valuesOf strtod answer tuple first (infos.map fun info => kindFor info.type) = none := by
    intro first infos hinfos hle
    induction infos generalizing first with
    | nil =>
      rw [List.drop_eq_nil_iff] at hinfos
      have hlt := (List.getElem?_eq_some_iff.mp hinfo).1
      omega
    | cons head infos ih =>
      have hhead : answer.columnMeta[first]? = some head := by
        rw [← List.head?_drop, hinfos]
        rfl
      have hrest : answer.columnMeta.drop (first + 1) = infos := by
        rw [← List.tail_drop, hinfos]
        rfl
      rw [List.map_cons, valuesOf]
      rcases Nat.eq_or_lt_of_le hle with rfl | hlt
      · obtain rfl := Option.some.inj (hhead.symm.trans hinfo)
        rw [hvalue]
        rfl
      · rw [ih (first + 1) hrest hlt]
        cases cellValue strtod (kindFor head.type) (answer.native first) (answer.cell tuple first) <;>
          rfl
  exact hfrom 0 answer.columnMeta rfl (Nat.zero_le _)

variable (strtod) in
/-- A `result_set` on its way through a result. -/
structure ResultSet.On (r : ResultSet) (answer : PGresult)
    (shapes : List (Option (BufferKind × ℕ))) : Prop where
  kinds : r.kinds = answer.kinds
  current : r.currentRow ≤ r.rowsFetched
  cursor : r.stmt.cursor ≤ answer.tuples.length
  between : r.stmt.Between answer shapes
  block : 0 < r.rowsFetched → r.rowsFetched = r.stmt.rowsFetched ∧
    ∃ s₀ : Statement, s₀.Loaded strtod r.stmt answer shapes

/-- What `next` does: it stops after the last row, or reaches the next one, or throws. -/
theorem ResultSet.On.next {r : ResultSet} (h : r.On strtod answer shapes)
    (hbound : ColumnsBound answer shapes) :
    (r.ahead = 0 ∧ r.next strtod = .ok none) ∨
      (∃ r', r.next strtod = .ok (some r') ∧ r'.On strtod answer shapes ∧ r'.ahead + 1 = r.ahead ∧
        r.ahead ≤ answer.tuples.length ∧
        Yields r'.current
          (valuesOf strtod answer (answer.tuples.length - r.ahead) 0 answer.kinds)
          (valuesLong answer (answer.tuples.length - r.ahead) 0 answer.columnMeta)) ∨
      ∃ e, r.next strtod = .error e ∧ e ≠ .overrun ∧
        ∃ tuple, answer.tuples.length - r.ahead ≤ tuple ∧ tuple < answer.tuples.length ∧
          BadCell strtod answer shapes tuple := by
  have hanswer := h.between.answer
  have hcurrent := h.current
  have hcursor := h.cursor
  have hahead : r.ahead = (answer.tuples.length - r.stmt.cursor) + (r.rowsFetched - r.currentRow) := by
    rw [← hanswer]
    rfl
  by_cases hmore : r.currentRow < r.rowsFetched
  · -- a row of the block
    right
    left
    obtain ⟨hrows, s₀, hloaded⟩ := h.block (by omega)
    have hcursor' := hloaded.cursor
    have hread := hloaded.valuesFrom_spec hbound r.currentRow (by omega) 0 rfl
    refine ⟨{ r with currentRow := r.currentRow + 1 }, if_pos hmore,
      ⟨h.kinds, hmore, hcursor, h.between, h.block⟩, ?_, by omega, ?_⟩
    · change (r.stmt.answer.tuples.length - r.stmt.cursor) + (r.rowsFetched - (r.currentRow + 1)) + 1 =
        (r.stmt.answer.tuples.length - r.stmt.cursor) + (r.rowsFetched - r.currentRow)
      omega
    · have htuple : answer.tuples.length - r.ahead = s₀.cursor + r.currentRow := by omega
      change Yields (r.stmt.valuesFrom (r.currentRow + 1 - 1) 1 r.kinds) _ _
      rw [Nat.add_sub_cancel, h.kinds, htuple]
      exact hread
  · by_cases hleft : r.stmt.cursor < answer.tuples.length
    · right
      unfold ResultSet.next
      rw [if_neg hmore]
      rcases h.between.fetch strtod hleft with ⟨s', hfetch, hloaded⟩ | ⟨e, hfetch, hne, tuple, hlow, hhigh, hbad⟩
      · left
        have hnonempty := hloaded.nonempty
        have hcursor' := hloaded.cursor
        have hlast := hloaded.last
        have hread := hloaded.valuesFrom_spec hbound 0 hnonempty 0 rfl
        refine ⟨⟨s', r.kinds, s'.rowsFetched, 1⟩, ?_,
          ⟨h.kinds, hnonempty, hlast, hloaded.between, fun _ => ⟨rfl, r.stmt, hloaded⟩⟩, ?_, by omega, ?_⟩
        · rw [hfetch]
          change (if 0 < s'.rowsFetched then _ else _) = _
          rw [if_pos hnonempty]
          rfl
        · change (s'.answer.tuples.length - s'.cursor) + (s'.rowsFetched - 1) + 1 = r.ahead
          rw [hloaded.between.answer]
          omega
        · have htuple : answer.tuples.length - r.ahead = r.stmt.cursor + 0 := by omega
          change Yields (s'.valuesFrom (1 - 1) 1 r.kinds) _ _
          rw [h.kinds, htuple]
          exact hread
      · right
        rw [hfetch]
        exact ⟨e, rfl, hne, tuple, by omega, hhigh, hbad⟩
    · left
      refine ⟨by omega, ?_⟩
      unfold ResultSet.next
      rw [if_neg hmore, h.between.fetch_last strtod (Nat.le_of_not_lt hleft)]
      rfl

def usedOf {α : Type} (use : List SqlValue → Except ReadError α) (values : Option (List SqlValue)) :
    Option α :=
  values.bind fun values => (use values).toOption

variable {α : Type} {use : List SqlValue → Except ReadError α}

/-- A row is read, something is made of it, and the others follow. -/
theorem Yields.used {x : Reading (List SqlValue)} {values : Option (List SqlValue)}
    {y : Reading (List α)} {r : Option (List α)} {long long' : List LongRead}
    (huse : ∀ values, use values ≠ .error .overrun) (hx : Yields x values long)
    (hy : Yields y r long') :
    Yields (do
        let values ← x
        let a ← Action.lift (use values)
        let rows ← y
        Pure.pure (a :: rows))
      (do
        let a ← usedOf use values
        let rows ← r
        some (a :: rows)) (long ++ long') := by
  cases values with
  | none => exact hx.bind_none
  | some values =>
    apply hx.bind
    change Yields _ (do
      let a ← (use values).toOption
      let rows ← r
      some (a :: rows)) long'
    cases hmade : use values with
    | error e =>
      have hthrow : Yields (Action.lift (.error e : Except ReadError α)) none [] :=
        Yields.throw fun heq => huse values (heq ▸ hmade)
      exact hthrow.bind_none
    | ok a => exact ((Yields.lift rfl).both List.cons hy)

/-- A `result_set` reads the rows that are ahead. -/
theorem ResultSet.readRows_spec {r : ResultSet} (h : r.On strtod answer shapes)
    (hbound : ColumnsBound answer shapes) (huse : ∀ values, use values ≠ .error .overrun)
    {left : ℕ} (hleft : r.ahead = left) :
    Yields (readRows strtod use r)
      ((List.range' (answer.tuples.length - left) left).mapM fun tuple =>
        usedOf use (valuesOf strtod answer tuple 0 answer.kinds))
      ((List.range' (answer.tuples.length - left) left).flatMap fun tuple =>
        valuesLong answer tuple 0 answer.columnMeta) := by
  induction left generalizing r with
  | zero =>
    rw [readRows]
    rcases h.next hbound with ⟨-, hnext⟩ | ⟨r', -, -, hahead, -⟩ | ⟨e, -, -, tuple, hlow, hhigh, -⟩
    · split
      · rename_i e hfail
        rw [hnext] at hfail
        cases hfail
      · exact Yields.pure _
      · rename_i r' hsome
        rw [hnext] at hsome
        cases hsome
    · omega
    · omega
  | succ left ih =>
    rw [readRows]
    rcases h.next hbound with
      ⟨hzero, -⟩ | ⟨r', hnext, hon, hahead, hle, hcurrent⟩ | ⟨e, hnext, hne, tuple, hlow, hhigh, hbad⟩
    · omega
    · split
      · rename_i e hfail
        rw [hnext] at hfail
        cases hfail
      · rename_i hnone
        rw [hnext] at hnone
        cases hnone
      · rename_i r'' hsome
        rw [hnext] at hsome
        obtain rfl := Option.some.inj (Except.ok.inj hsome)
        have hrest := ih hon (by omega)
        have hstart : answer.tuples.length - left = answer.tuples.length - (left + 1) + 1 := by omega
        rw [hstart] at hrest
        rw [hleft] at hcurrent
        rw [List.range'_succ, List.mapM_cons, List.flatMap_cons]
        exact hcurrent.used huse hrest
    · have hmem : tuple ∈ List.range' (answer.tuples.length - (left + 1)) (left + 1) := by
        rw [List.mem_range'_1]
        omega
      have hnone : usedOf use (valuesOf strtod answer tuple 0 answer.kinds) = none := by
        rw [valuesOf_of_badCell hbound hbad]
        rfl
      rw [mapM_eq_none hmem hnone]
      split
      · rename_i e' hfail
        rw [hnext] at hfail
        obtain rfl := Except.error.inj hfail
        exact Yields.throw hne
      · rename_i hnone
        rw [hnext] at hnone
        cases hnone
      · rename_i r'' hsome
        rw [hnext] at hsome
        cases hsome

theorem roomy_columnBuffer (info : ColumnInfo) (rows : ℕ) : (columnBuffer info rows).Roomy := by
  unfold ColumnBuffer.Roomy columnBuffer
  cases hkind : kindFor info.type with
  | text =>
    simp only [SlotKind.bufferKind, BufferKind.width]
    split <;> omega
  | bytes => exact Nat.zero_le _
  | boolean | integer | floating | ts | dt | tm => exact le_refl _

theorem mem_columnBuffers {rows : ℕ} {infos : List ColumnInfo} {bind : ℕ × ColumnBuffer} :
    bind ∈ columnBuffers rows column infos ↔
      ∃ i info, infos[i]? = some info ∧ bind = (column + i, columnBuffer info rows) := by
  induction infos generalizing column with
  | nil => simp [columnBuffers]
  | cons head infos ih =>
    rw [columnBuffers, List.mem_cons, ih]
    constructor
    · rintro (rfl | ⟨i, info, hinfo, rfl⟩)
      · exact ⟨0, head, rfl, rfl⟩
      · exact ⟨i + 1, info, hinfo, by rw [Nat.add_right_comm, Nat.add_assoc]⟩
    · rintro ⟨i, info, hinfo, rfl⟩
      cases i with
      | zero =>
        obtain rfl := Option.some.inj hinfo
        exact .inl rfl
      | succ i => exact .inr ⟨i, info, hinfo, by rw [Nat.add_right_comm, Nat.add_assoc]⟩

theorem nodup_columnBuffers (rows : ℕ) (infos : List ColumnInfo) :
    ((columnBuffers rows column infos).map Prod.fst).Nodup := by
  induction infos generalizing column with
  | nil => exact List.nodup_nil
  | cons head infos ih =>
    rw [columnBuffers, List.map_cons, List.nodup_cons]
    refine ⟨?_, ih⟩
    intro hmem
    obtain ⟨bind, hbind, heq⟩ := List.mem_map.mp hmem
    obtain ⟨i, info, -, rfl⟩ := mem_columnBuffers.mp hbind
    simp only at heq
    omega

theorem length_columnMeta : answer.columnMeta.length = answer.fields.length := List.length_map _

/-- A `result_set` binds every column of its result. -/
theorem ResultSet.fromStatement_spec (strtod : List UInt8 → Option (BitVec 64)) (size : ℕ)
    (answer : PGresult) :
    ∃ r shapes, fromStatement size answer = .ok r ∧ r.On strtod answer shapes ∧
      ColumnsBound answer shapes ∧ r.ahead = answer.tuples.length := by
  obtain ⟨start, hstart⟩ : ∃ s, (Statement.executed answer).setRowArraySize size = s := ⟨_, rfl⟩
  have hinfo : ∀ bind ∈ columnBuffers start.rowArraySize 1 answer.columnMeta,
      ∃ i info, answer.columnMeta[i]? = some info ∧
        bind = (i + 1, columnBuffer info start.rowArraySize) := by
    intro bind hbind
    obtain ⟨i, info, hinfo, rfl⟩ := mem_columnBuffers.mp hbind
    exact ⟨i, info, hinfo, by rw [Nat.add_comm]⟩
  obtain ⟨s, hs⟩ := @Statement.bindAll_of_free start
    (columnBuffers start.rowArraySize 1 answer.columnMeta) (nodup_columnBuffers _ _) (by
      intro bind hbind
      obtain ⟨i, info, hinfo, rfl⟩ := hinfo bind hbind
      have hlt := (List.getElem?_eq_some_iff.mp hinfo).1
      rw [length_columnMeta] at hlt
      refine ⟨Nat.succ_pos _, ?_⟩
      rw [← hstart, Nat.add_sub_cancel]
      exact executed_slot hlt)
  have hbound := Statement.bindAll_eq_ok hs
  rw [← hstart] at hbound
  obtain ⟨hbetween, hcursor⟩ := hbound.between start.rowArraySize (by
    intro bind hbind
    rw [hstart] at hbind
    obtain ⟨i, info, -, rfl⟩ := hinfo bind hbind
    exact ⟨roomy_columnBuffer _ _, rfl⟩) (by rw [hstart])
  refine ⟨⟨s, answer.kinds, 0, 0⟩, s.shapes, ?_,
    ⟨rfl, le_refl _, by rw [hcursor]; exact Nat.zero_le _, hbetween, fun h => absurd h (lt_irrefl 0)⟩, ?_, ?_⟩
  · unfold fromStatement
    rw [hstart]
    change (bindColumns 1 answer.columnMeta start >>= fun s => pure _) = _
    rw [bindColumns_eq, hs]
    rfl
  · intro field
    rw [Statement.shapes, List.getElem?_map]
    cases hfield : answer.columnMeta[field]? with
    | some info =>
      have hmem : (field + 1, columnBuffer info start.rowArraySize) ∈
          columnBuffers start.rowArraySize 1 answer.columnMeta :=
        mem_columnBuffers.mpr ⟨field, info, hfield, by rw [Nat.add_comm]⟩
      rw [← hstart] at hmem
      have hplaced := hbound.placed _ hmem
      rw [Nat.add_sub_cancel] at hplaced
      rw [hplaced]
      rfl
    | none =>
      have hlen := List.getElem?_eq_none_iff.mp hfield
      rw [length_columnMeta] at hlen
      rw [List.getElem?_eq_none_iff.mpr (by rw [hbetween.slots]; exact hlen)]
      rfl
  · change (s.answer.tuples.length - s.cursor) + (0 - 0) = _
    rw [hbetween.answer, hcursor]
    omega

/-- `next` and `current` read every row once, and every value again that is too long for its
place. -/
theorem ResultSet.readAll_spec (size : ℕ) (huse : ∀ values, use values ≠ .error .overrun) :
    Yields (readAll strtod use size answer)
      ((List.range answer.tuples.length).mapM fun tuple =>
        usedOf use (valuesOf strtod answer tuple 0 answer.kinds))
      ((List.range answer.tuples.length).flatMap fun tuple =>
        valuesLong answer tuple 0 answer.columnMeta) := by
  obtain ⟨r, shapes, hr, hon, hbound, hahead⟩ := fromStatement_spec strtod size answer
  have hrows := readRows_spec hon hbound huse hahead
  rw [Nat.sub_self, ← List.range_eq_range'] at hrows
  exact (Yields.lift hr).bind_nil hrows

end

end Uniorm.Libpq
