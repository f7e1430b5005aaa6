import Uniorm.Ddl.Keys
import Uniorm.Ddl.RoundTrip

/-! # What is accepted can be written

Every table of an accepted script can be written: its columns have the type that
their type's name says, a size that fits and a default that is read again, no
column of its primary key is nullable, the key names no column twice, and every
index has a name. So the schema of any script whose tables are told apart has a
text of its own, which is read as that schema.
-/
namespace Uniorm.Ddl

open Foundation Foundation.Scan Sql Builder Schema

section Read
variable {α β σ : Type} {P : β → Prop} {Q : α → Prop}

theorem gives_bind_of {x : Reading α} {f : α → Reading β} (hx : Gives Q x)
    (h : ∀ a, Q a → Gives P (f a)) : Gives P (x >>= f) := by
  intro text r hread
  rw [read_bind] at hread
  obtain ⟨q, hq, hread⟩ := Option.bind_eq_some_iff.mp hread
  exact h q.1 (hx text q hq) q.2 r hread

/-- Two branches that go on alike. -/
theorem gives_ite_bind {p : Prop} [Decidable p] {x y : Reading α} {f : α → Reading β}
    (hx : Gives Q x) (hy : Gives Q y) (hf : ∀ a, Q a → Gives P (f a)) :
    Gives P (if p then x >>= f else y >>= f) :=
  gives_ite (gives_bind_of hx hf) (gives_bind_of hy hf)

theorem gives_branches {p : Prop} [Decidable p] {x y : Reading α} {f : α → Reading β}
    (hf : ∀ a, Gives P (f a)) : Gives P (if p then x >>= f else y >>= f) :=
  gives_ite (gives_bind hf) (gives_bind hf)

theorem gives_when {p : Prop} [Decidable p] {x : Reading Unit} {f : Unit → Reading β}
    (hf : ∀ u, Gives P (f u)) : Gives P (if p then x >>= f else f ()) :=
  gives_ite (gives_bind hf) (hf ())

theorem gives_loop {I : σ → Prop} {body : σ → Reading (σ ⊕ β)}
    (h : ∀ s, I s → Gives (Sum.elim I P) (body s)) {s : σ} (hs : I s) : Gives P (loop body s) :=
  fun _ _ hread => loop_invariant (fun s text r hs hread => h s hs text r hread) hs hread

end Read

def Capital (phrase : Text) : Prop := foldUpper phrase = phrase

theorem capital_foldUpper (name : Text) : Capital (foldUpper name) := foldUpper_foldUpper name

theorem Capital.word {phrase : Text} (h : Capital phrase) (word : Text) :
    Capital (phrase ++ ' ' :: foldUpper word) := by
  have hword := foldUpper_foldUpper word
  rw [Capital] at h ⊢
  rw [foldUpper] at h hword ⊢
  rw [List.map_append, h, List.map_cons, hword]
  rfl

section Types
variable {row : ColumnRow}

theorem clampFrom_le (digits : Text) {total : ℕ} (h : total ≤ int32Max) :
    clampFrom total digits ≤ int32Max := by
  induction digits generalizing total with
  | nil => exact h
  | cons c digits ih =>
    rw [clampFrom]
    split_ifs with hmore
    · exact le_rfl
    · exact ih (Nat.not_lt.mp hmore)

theorem clampSize_le (digits : Text) : clampSize digits ≤ int32Max :=
  clampFrom_le digits (Nat.zero_le _)

structure Fresh (row : ColumnRow) : Prop extends Sized row where
  none : row.defaultValue = none

theorem Fresh.argument (h : Fresh row) (slot : ℕ) (item : Text) :
    Fresh (Ddl.argument slot item row) := by
  have hclamp := clampSize_le item
  rw [Ddl.argument]
  split_ifs
  · exact ⟨⟨⟨Int.natCast_nonneg _, Int.ofNat_le.mpr hclamp⟩, h.decimals⟩, h.none⟩
  · have hlow := Int.le_bmod (x := (clampSize item : ℤ)) (m := 65536) (by omega)
    have hhigh := Int.bmod_lt (x := (clampSize item : ℤ)) (m := 65536) (by omega)
    refine ⟨⟨h.size, ?_, ?_⟩, h.none⟩
    · simp only
      omega
    · simp only
      omega
  · exact h

theorem gives_readArguments [Dangling] (h : Fresh row) : Gives Fresh (readArguments row) := by
  rw [readArguments_eq]
  refine gives_loop (I := fun state => Fresh state.2) (fun state hstate => ?_) h
  refine gives_bind fun closed => gives_ite (gives_pure hstate) (gives_bind fun item => ?_)
  have hitem := hstate.argument state.1 item
  exact gives_bind fun more => gives_ite (gives_pure hitem) (gives_bind fun _ => gives_pure hitem)

theorem gives_readPhrase {phrase : Text} (h : Capital phrase) :
    Gives Capital (readPhrase phrase) := by
  rw [readPhrase_eq]
  refine gives_loop (I := Capital) (fun phrase hphrase => ?_) h
  refine gives_bind fun word => gives_ite (gives_pure hphrase) (gives_bind fun _ => ?_)
  exact gives_pure (hphrase.word word)

theorem gives_readType [Dangling] (h : Fresh row) : Gives WritableColumn (readType row) := by
  refine gives_bind fun parts => gives_bind fun early => ?_
  refine gives_ite_bind (gives_readArguments h) (gives_pure h) fun row hrow => ?_
  refine gives_bind_of (gives_readPhrase (capital_foldUpper _)) fun phrase hphrase => ?_
  refine gives_branches fun late => ?_
  refine gives_ite_bind (gives_readArguments hrow) (gives_pure hrow) fun row hrow => ?_
  refine gives_bind fun _ => gives_bind fun array => gives_ite (gives_fail _) (gives_pure ?_)
  refine ⟨⟨hrow.size, hrow.decimals⟩, hphrase, rfl, fun text htext => ?_⟩
  rw [hrow.none] at htext
  cases htext

end Types

def Edit.Good [Dangling] : Edit → Prop
  | .column row => WritableColumn row
  | .index row => row.name ≠ []
  | _ => True

def Good [Dangling] (edits : List Edit) : Prop := ∀ e ∈ edits, e.Good

theorem good_nil [Dangling] : Good [] := fun _ h => absurd h List.not_mem_nil

theorem Good.append [Dangling] {edits more : List Edit} (h : Good edits) (h' : Good more) :
    Good (edits ++ more) :=
  List.forall_mem_append.mpr ⟨h, h'⟩

theorem good_singleton [Dangling] {e : Edit} (h : e.Good) : Good [e] := List.forall_mem_singleton.mpr h

theorem indexName_ne_nil (given : Text) (columns : List Text) {fallback : Text}
    (h : fallback ≠ []) : indexName given columns fallback ≠ [] := by
  rw [indexName]
  split_ifs with hgiven
  · exact hgiven
  · exact List.append_ne_nil_of_left_ne_nil h _

theorem gives_readReferences [Dangling] (locals : List Text) : Gives Good (readReferences locals) := by
  refine gives_bind fun _ => gives_bind fun target => gives_bind fun listed => ?_
  refine gives_branches fun columns => ?_
  refine gives_ite (gives_bind fun _ => gives_pure (good_singleton trivial)) ?_
  refine gives_ite (gives_fail _) (gives_bind fun _ => gives_pure fun e he => ?_)
  obtain ⟨pair, -, rfl⟩ := List.mem_map.mp he
  trivial

theorem gives_readKeyColumns [Dangling] : Gives Good readKeyColumnsThenReferences :=
  gives_bind fun _ => gives_ite (gives_bind fun names => gives_readReferences names)
    (gives_readReferences [])

theorem gives_readGenerated [Dangling] (column : Text) : Gives Good (readGenerated column) := by
  refine gives_bind fun always => gives_when fun _ => gives_bind fun as => ?_
  refine gives_branches fun identity => gives_branches fun expression => gives_when fun _ => ?_
  refine gives_ite (gives_fail _) (gives_bind fun _ => gives_pure ?_)
  split_ifs
  · exact good_singleton trivial
  · exact good_nil

def GoodRow [Dangling] (r : ColumnRow × List Edit) : Prop := WritableColumn r.1 ∧ Good r.2

theorem gives_value [Dangling] : Gives Value value := fun text r hread => ⟨text, r.2, hread⟩

theorem gives_skips [Dangling] {row : ColumnRow} (h : WritableColumn row) (leads : List String)
    (x : Reading Unit) :
    Gives GoodRow ((Clause.skips leads x).read row) :=
  gives_bind fun _ => gives_pure ⟨h, good_nil⟩

theorem gives_clause [Dangling] {row : ColumnRow} (h : WritableColumn row) :
    ∀ clause ∈ Clause.all, Gives GoodRow (clause.read row) := by
  simp only [Clause.all, List.forall_mem_cons]
  refine ⟨?_, ?_, ?_, ?_, ?_, ?_, gives_skips h _ _, gives_skips h _ _, gives_skips h _ _,
    gives_skips h _ _, gives_skips h _ _, ?_, gives_skips h _ _, gives_skips h _ _,
    gives_skips h _ _,
    gives_skips h _ _, gives_skips h _ _, gives_skips h _ _, gives_skips h _ _,
    fun _ h => absurd h List.not_mem_nil⟩
  · refine gives_bind fun null => gives_ite (gives_pure
      ⟨⟨⟨h.sized.size, h.sized.decimals⟩, h.folded, h.type, h.default⟩, good_nil⟩) ?_
    exact gives_bind fun _ => gives_pure ⟨h, good_nil⟩
  · exact gives_pure ⟨⟨⟨h.sized.size, h.sized.decimals⟩, h.folded, h.type, h.default⟩, good_nil⟩
  · refine gives_bind_of gives_value fun text htext =>
      gives_pure ⟨⟨⟨h.sized.size, h.sized.decimals⟩,
      h.folded, h.type, fun text' heq => ?_⟩, good_nil⟩
    obtain rfl := Option.some.inj heq
    exact htext
  · exact gives_bind fun _ =>
      gives_pure ⟨⟨⟨h.sized.size, h.sized.decimals⟩, h.folded, h.type, h.default⟩,
      good_singleton trivial⟩
  · have hname : indexName [] [row.shape.name] "unique".toList ≠ [] :=
      indexName_ne_nil _ _ (List.cons_ne_nil _ _)
    exact gives_bind fun _ => gives_pure ⟨h, good_singleton hname⟩
  · exact gives_bind_of (gives_readReferences _) fun edits hedits => gives_pure ⟨h, hedits⟩
  · exact gives_bind_of (gives_readGenerated _) fun edits hedits => gives_pure ⟨h, hedits⟩

theorem gives_readFirst [Dangling] {row : ColumnRow} {clauses : List Clause}
    (h : ∀ clause ∈ clauses, Gives GoodRow (clause.read row)) :
    Gives GoodRow (Clause.readFirst row clauses) := by
  induction clauses with
  | nil => exact gives_bind fun found => gives_fail _
  | cons clause clauses ih =>
    obtain ⟨hclause, hmore⟩ := List.forall_mem_cons.mp h
    exact gives_bind fun there => gives_ite hclause (ih hmore)

theorem fresh_row {name : Text} : Fresh { shape := { name, nullable := true } } :=
  ⟨⟨⟨Int.le_refl 0, Int.natCast_nonneg _⟩, ⟨by simp, by simp⟩⟩, rfl⟩

theorem gives_readColumnDef [Dangling] : Gives Good readColumnDef := by
  rw [readColumnDef_eq]
  refine gives_bind fun name => gives_bind_of (gives_readType fresh_row) fun row hrow => ?_
  refine gives_loop (I := GoodRow) (fun state hstate => ?_) ⟨hrow, good_nil⟩
  refine gives_bind fun atEnd => gives_ite (gives_pure (hstate.2.append (good_singleton hstate.1)))
    ?_
  refine gives_bind_of (gives_readFirst (gives_clause hstate.1)) fun r hr => gives_pure ?_
  exact ⟨hr.1, hstate.2.append hr.2⟩

theorem gives_readIndex [Dangling] {fallback : Text} (h : fallback ≠ []) (unique : Bool) :
    Gives Good (readIndex fallback unique) := by
  refine gives_bind fun listed => gives_branches fun name => gives_bind fun columns => ?_
  exact gives_bind fun _ => gives_pure (good_singleton (indexName_ne_nil _ _ h))

theorem gives_readConstraint [Dangling] (table : Text) : Gives Good (readConstraint table) := by
  have hnone : Good (nonValue table) := good_singleton trivial
  refine gives_bind fun primary => gives_ite ?_ ?_
  · refine gives_bind fun _ => gives_bind fun columns => gives_bind fun _ => gives_pure fun e he =>
      ?_
    obtain ⟨column, -, rfl⟩ := List.mem_map.mp he
    trivial
  refine gives_bind fun unique => gives_ite ?_ ?_
  · exact gives_bind fun _ => gives_readIndex (List.cons_ne_nil _ _) true
  refine gives_bind fun key => gives_ite (gives_readIndex (List.cons_ne_nil _ _) false) ?_
  refine gives_bind fun foreign => gives_ite (gives_bind fun _ => gives_readKeyColumns) ?_
  refine gives_bind fun check => gives_ite (gives_bind fun _ => gives_bind fun _ =>
    gives_pure hnone) ?_
  refine gives_bind fun other => gives_ite (gives_bind fun _ => gives_pure hnone) ?_
  exact gives_bind fun found => gives_fail _

theorem gives_readNamedConstraint [Dangling] (table : Text) : Gives Good (readNamedConstraint table) := by
  exact gives_bind fun lead => gives_when fun _ => gives_readConstraint table

theorem gives_readTableItem [Dangling] (table : Text) : Gives Good (readTableItem table) := by
  refine gives_bind fun named => gives_ite (gives_readNamedConstraint table) ?_
  exact gives_bind fun lead => gives_ite (gives_readConstraint table) gives_readColumnDef

theorem gives_items [Dangling] (table : Text) : Gives Good (readTableItems table) := by
  rw [readTableItems_eq]
  refine gives_bind fun like => gives_ite (gives_fail _) (gives_bind fun _ => ?_)
  have hloop : Gives Good (loop (itemStep table) []) := by
    refine gives_loop (I := Good) (fun edits hedits => ?_) good_nil
    refine gives_bind fun closed => gives_ite (gives_pure hedits) ?_
    refine gives_bind_of (gives_readTableItem table) fun item hitem => ?_
    have hmore := hedits.append hitem
    exact gives_bind fun more => gives_ite (gives_pure hmore) (gives_bind fun _ => gives_pure hmore)
  exact gives_bind_of hloop fun edits hedits => gives_bind fun _ =>
    gives_pure (hedits.append (good_singleton trivial))

theorem gives_readAddedColumns [Dangling] : Gives Good readAddedColumns := by
  refine gives_bind fun grouped => gives_bind_of gives_readColumnDef fun first hfirst => ?_
  refine gives_ite ?_ (gives_pure hfirst)
  refine gives_bind_of (gives_loop (I := Good) (fun edits hedits => ?_) hfirst) fun edits hedits =>
    gives_bind fun _ => gives_pure hedits
  refine gives_bind fun more => gives_ite ?_ (gives_pure hedits)
  exact gives_bind_of gives_readColumnDef fun item hitem => gives_pure (hedits.append hitem)

theorem gives_readAddition [Dangling] (table : Text) : Gives Good (readAddition table) := by
  refine gives_bind fun column => gives_ite gives_readAddedColumns ?_
  refine gives_bind fun constraint => gives_ite ?_ gives_readAddedColumns
  refine gives_bind fun named => gives_branches fun lead => ?_
  exact gives_when fun _ => gives_readConstraint table

theorem gives_readAdditions [Dangling] (table : Text) : Gives Good (readAdditions table) := by
  refine gives_loop (I := Good) (fun edits hedits => ?_) good_nil
  refine gives_bind fun add => gives_ite ?_ (gives_pure hedits)
  refine gives_bind_of (gives_readAddition table) fun item hitem => gives_bind fun more =>
    gives_pure ?_
  have hmore := hedits.append hitem
  split_ifs
  · exact hmore
  · exact hmore

theorem gives_readOtherActions [Dangling] (parts : List Text) : Gives Good (readOtherActions parts) := by
  refine gives_loop (I := Good) (fun edits hedits => ?_) good_nil
  refine gives_bind fun atEnd => gives_ite (gives_pure hedits) ?_
  refine gives_bind fun action => gives_bind fun _ => gives_bind fun more => gives_pure ?_
  have hmore : ∀ what, Good (edits ++ [Edit.ignore what]) := fun _ =>
    hedits.append (good_singleton trivial)
  split_ifs
  · exact hmore _
  · exact hmore _

def Command.Good [Dangling] : Command → Prop
  | .createTable _ items => Ddl.Good items
  | .alter _ items => Ddl.Good items
  | _ => True

theorem gives_createTable [Dangling] : Gives Command.Good readCreateTable := by
  refine gives_bind fun _ => gives_bind fun parts => ?_
  exact gives_bind_of (gives_items _) fun edits hedits => gives_pure hedits

theorem gives_createIndex [Dangling] (unique : Bool) : Gives Command.Good (readCreateIndex unique) := by
  refine gives_bind fun _ => gives_bind fun name => gives_bind fun on => ?_
  refine gives_ite (gives_fail _) (gives_bind fun parts => gives_bind fun method => ?_)
  exact gives_when fun _ => gives_bind fun columns => gives_bind fun _ => gives_pure trivial

theorem gives_create [Dangling] : Gives Command.Good readCreate := by
  refine gives_bind fun _ => gives_bind fun table => gives_ite gives_createTable ?_
  refine gives_bind fun unique => gives_bind fun index => gives_ite (gives_createIndex unique) ?_
  refine gives_bind fun place => gives_ite ?_ ?_
  · exact gives_bind fun _ => gives_bind fun _ => gives_bind fun _ => gives_pure trivial
  · exact gives_bind fun _ => gives_bind fun _ => gives_pure trivial

theorem gives_alter [Dangling] (tables : List Text → Option Text) :
    Gives Command.Good (readAlter tables) := by
  refine gives_bind fun table => gives_ite ?_ ?_
  · exact gives_bind fun _ => gives_bind fun _ => gives_pure trivial
  · refine gives_bind fun _ => gives_bind fun parts => ?_
    cases tables parts with
    | none => exact gives_bind fun _ => gives_pure trivial
    | some name =>
      refine gives_bind_of (gives_readAdditions name) fun added hadded => ?_
      refine gives_bind_of (gives_readOtherActions parts) fun others hothers => gives_bind fun _ =>
        ?_
      exact gives_pure ((hadded.append hothers).append (good_singleton trivial))

theorem gives_statement [Dangling] (tables : List Text → Option Text) :
    Gives Command.Good (readStatement tables) := by
  refine gives_bind fun empty => gives_ite (gives_pure trivial) ?_
  refine gives_bind fun create => gives_ite gives_create ?_
  refine gives_bind fun alter => gives_ite (gives_alter tables) ?_
  refine gives_bind fun use => gives_ite ?_ ?_
  · exact gives_bind fun _ => gives_bind fun _ => gives_bind fun _ => gives_pure trivial
  · refine gives_bind fun found => gives_bind fun _ => gives_pure ?_
    split_ifs <;> trivial

/-- What every edit keeps; that no column of the key is nullable is left for the end. -/
structure Shaped [Dangling] (table : DdlTable) : Prop where
  columns : ∀ row ∈ table.columns, WritableColumn row
  distinct : table.primaryKey.Nodup
  indexes : ∀ row ∈ table.indexes, row.name ≠ []

theorem WritableTable.shaped [Dangling] {table : DdlTable} (h : WritableTable table) : Shaped table :=
  ⟨h.columns, h.distinct, h.indexes⟩

theorem writable_freshTable [Dangling] (parts : List Text) : WritableTable (freshTable parts) := by
  have hnone : (freshTable parts).columns = [] ∧ (freshTable parts).indexes = [] := by
    unfold freshTable
    split <;> exact ⟨rfl, rfl⟩
  obtain ⟨hcolumns, hindexes⟩ := hnone
  refine ⟨?_, ?_, freshTable_primaryKey parts ▸ List.nodup_nil, ?_⟩
  · rw [hcolumns]
    exact fun _ h => absurd h List.not_mem_nil
  · rw [hcolumns]
    exact fun _ h => absurd h List.not_mem_nil
  · rw [hindexes]
    exact fun _ h => absurd h List.not_mem_nil

/-- A column of the key is not nullable once the keys are applied. -/
theorem Shaped.applyKeys [Dangling] {table : DdlTable} (h : Shaped table) : WritableTable (applyKeys table)
    where
  columns := by
    intro row hrow
    rw [applyKeys_columns] at hrow
    obtain ⟨old, hold, rfl⟩ := List.mem_map.mp hrow
    have hcolumn := h.columns old hold
    rw [keyedRow]
    split_ifs
    · exact ⟨⟨hcolumn.sized.size, hcolumn.sized.decimals⟩, hcolumn.folded, hcolumn.type,
        hcolumn.default⟩
    · exact hcolumn
  nullable := by
    intro row hrow name hname hfold
    rw [applyKeys_columns] at hrow
    obtain ⟨old, hold, rfl⟩ := List.mem_map.mp hrow
    rw [keyedRow_name] at hfold
    exact Bool.eq_false_iff.mpr fun hnullable =>
      ((keyedRow_nullable _ _).mp hnullable).2 ⟨name, hname, hfold⟩
  distinct := h.distinct
  indexes := h.indexes

theorem Shaped.onTable [Dangling] {table : DdlTable} (h : Shaped table) {e : Edit} (he : e.Good) :
    Shaped (e.onTable table) := by
  cases e with
  | column row => exact ⟨List.forall_mem_append.mpr ⟨h.columns, List.forall_mem_singleton.mpr he⟩,
      h.distinct, h.indexes⟩
  | key name =>
    refine ⟨?_, markKey_nodup h.distinct name, ?_⟩
    · rw [Edit.onTable, markKey]
      split_ifs <;> exact h.columns
    · rw [Edit.onTable, markKey]
      split_ifs <;> exact h.indexes
  | index row => exact ⟨h.columns, h.distinct,
      List.forall_mem_append.mpr ⟨h.indexes, List.forall_mem_singleton.mpr he⟩⟩
  | applyKeys => exact h.applyKeys.shaped
  | _ => exact ⟨h.columns, h.distinct, h.indexes⟩

theorem Shaped.edits [Dangling] {items : List Edit} (hgood : Good items) {table : DdlTable}
    (h : Shaped table) : Shaped (Ddl.onTable items table) := by
  induction items generalizing table with
  | nil => exact h
  | cons e items ih =>
    obtain ⟨he, hmore⟩ := List.forall_mem_cons.mp hgood
    exact ih hmore (h.onTable he)

/-- Edits that apply the keys last leave the table well formed. -/
theorem Shaped.writable [Dangling] {items : List Edit} (hgood : Good items) (hends : EndsWithKeys items)
    {table : DdlTable} (h : Shaped table) : WritableTable (Ddl.onTable items table) := by
  obtain ⟨edits, rfl⟩ := hends
  rw [onTable_append]
  exact (Shaped.edits (List.forall_mem_append.mp hgood).1 h).applyKeys

theorem forall_carry {P : DdlTable → Prop} {content : Content} (h : ∀ table ∈ content.out.tables,
    P table)
    {e : Effect} (he : ∀ table, P table → P (e.table table)) (hfresh : P (freshTable e.parts)) :
    ∀ table ∈ (content.carry e).out.tables, P table := by
  rw [Content.carry]
  cases findTable content.out.tables e.parts with
  | none =>
    split_ifs
    · exact List.forall_mem_append.mpr ⟨h, List.forall_mem_singleton.mpr (he _ hfresh)⟩
    · exact h
  | some slot =>
    intro table htable
    obtain ⟨n, hn⟩ := List.mem_iff_getElem?.mp htable
    simp only [Content.change, List.getElem?_modify] at hn
    obtain ⟨old, hold, rfl⟩ := Option.map_eq_some_iff.mp hn
    have hkept := h old (List.mem_of_getElem? hold)
    split_ifs
    · exact he old hkept
    · exact hkept

def Content.Writable [Dangling] (content : Content) : Prop :=
  ∀ table ∈ content.out.tables, WritableTable table

theorem Content.Writable.apply [Dangling] {content : Content} (h : content.Writable) {command : Command}
    (hgood : command.Good) (hkeys : command.AppliesKeys) : (content.apply command).Writable := by
  cases heffect : command.effect with
  | none =>
    intro table htable
    rw [(apply_tables heffect content).1] at htable
    exact h table htable
  | some e =>
    rw [apply_eq_carry heffect]
    refine forall_carry h (fun table htable => ?_) (writable_freshTable _)
    cases command with
    | createTable parts items =>
      obtain rfl := Option.some.inj heffect
      exact (writable_freshTable parts).shaped.writable hgood hkeys
    | createIndex name parts columns unique =>
      obtain rfl := Option.some.inj heffect
      have hname : indexName name columns "index".toList ≠ [] :=
        indexName_ne_nil _ _ (List.cons_ne_nil _ _)
      exact ⟨htable.columns, htable.nullable, htable.distinct,
        List.forall_mem_append.mpr ⟨htable.indexes, List.forall_mem_singleton.mpr hname⟩⟩
    | alter parts items =>
      obtain rfl := Option.some.inj heffect
      exact htable.shaped.writable hgood hkeys
    | _ => cases heffect

theorem Content.Writable.run [Dangling] {content : Content} {text : Text} {commands : List Command}
    (hread : Commands content text commands) (h : content.Writable) :
    (content.run commands).Writable := by
  induction hread with
  | done hskip => exact h
  | next hskip hne hcommand hmore ih =>
    exact ih (h.apply (gives_statement _ _ _ hcommand) (gives_readStatement _ _ _ hcommand))

theorem Content.Writable.finish [Dangling] {content : Content} (h : content.Writable) :
    ∀ table ∈ content.finish.tables, WritableTable table := by
  intro table htable
  obtain ⟨n, hn⟩ := List.mem_iff_getElem?.mp htable
  rw [Content.finish, resolvePendingKeys_table] at hn
  obtain ⟨old, hold, rfl⟩ := Option.map_eq_some_iff.mp hn
  have hkept := h old (List.mem_of_getElem? hold)
  exact ⟨hkept.columns, hkept.nullable, hkept.distinct, hkept.indexes⟩

/-- Every table of an accepted script is well formed. -/
theorem writable_of_parseDdl [Dangling] {script : Text} {out : DdlSnapshot} {warnings : List Text}
    (h : parseDdl script = .ok (out, warnings)) : ∀ table ∈ out.tables, WritableTable table := by
  have hschema : schemaOf script = some out := by rw [schemaOf, h]
  rw [schemaOf_eq, schemaFrom_eq_some_iff] at hschema
  obtain ⟨commands, hcommands, rfl⟩ := hschema
  have hempty : ({} : Content).Writable := fun _ h => absurd h List.not_mem_nil
  exact (hempty.run hcommands).finish

/-- What is accepted can be written, and what it is written as is read as the same schema. -/
theorem accepted_reads_back [Dangling] {script : Text} {out : DdlSnapshot} {warnings : List Text}
    (h : parseDdl script = .ok (out, warnings)) :
    (∀ table ∈ out.tables, WritableTable table) ∧
      (Apart out.tables → parseDdl (scriptText out) = .ok (out, [])) := by
  have htables := writable_of_parseDdl h
  exact ⟨htables, fun hapart => parseDdl_of_reached (Writable.read_scriptText ⟨htables, hapart⟩)⟩

section Small
attribute [local instance] Dangling.small

theorem altered_table_reads_back : ∃ table : DdlTable,
    table.primaryKey = ["Id".toList] ∧ WritableTable table ∧
      parseDdl (scriptText ⟨[], [table]⟩) = .ok (⟨[], [table]⟩, []) := by
  have hread : parseDdl
      "create table T (Id serial, n varchar(8) default f(1)::text); alter table t add primary key (Id)".toList =
        .ok (⟨[], [⟨⟨[], [], "T".toList⟩, [⟨⟨"Id".toList, .integer, false⟩, "SERIAL".toList, 0, 0,
        none⟩,
          ⟨⟨"n".toList, .varchar, true⟩, "VARCHAR".toList, 8, 0, some "f(1)::text".toList⟩],
          ["Id".toList], [], []⟩]⟩, []) :=
    parseDdl_of_reached rfl
  obtain ⟨htables, hagain⟩ := accepted_reads_back hread
  exact ⟨_, rfl, htables _ List.mem_cons_self, hagain (by decide)⟩

end Small

end Uniorm.Ddl
