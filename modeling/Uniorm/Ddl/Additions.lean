import Uniorm.Ddl.Alter
import Uniorm.Ddl.Target
import Uniorm.Ddl.Routine
import Mathlib.Data.List.Nodup

/-! # What ALTER TABLE leaves of its table

The actions that are carried out are those in front of the first one that adds
nothing. So the statement leaves its table as the adding actions alone do
exactly when the adding actions behind it would have changed nothing.
-/
namespace Uniorm.Ddl

open Foundation Foundation.Scan Sql Builder Schema

def PendingKey.listed (key : PendingKey) : Bool := !key.locals.isEmpty

/-- Contents that differ in keys without columns only. -/
structure Content.Same (content content' : Content) : Prop where
  out : content.out = content'.out
  pending : content.pending.filter PendingKey.listed = content'.pending.filter PendingKey.listed

namespace Content.Same
variable {content content' : Content}

theorem change (h : content.Same content') (slot : ℕ) (f : DdlTable → DdlTable) (waits : List Wait) :
    (content.change slot f waits).Same (content'.change slot f waits) := by
  refine ⟨?_, ?_⟩
  · simp only [Content.change, h.out]
  · simp only [Content.change, List.filter_append, h.pending]

theorem carry (h : content.Same content') (e : Effect) :
    (content.carry e).Same (content'.carry e) := by
  rw [Content.carry, Content.carry, h.out]
  cases findTable content'.out.tables e.parts with
  | some slot => exact h.change slot e.table e.waits
  | none =>
    by_cases hcreates : e.creates = true
    · simp only [if_pos hcreates]
      refine ⟨?_, ?_⟩
      · rfl
      · simp only [List.filter_append, h.pending]
    · simp only [if_neg hcreates]
      exact h

theorem apply (h : content.Same content') (command : Command) :
    (content.apply command).Same (content'.apply command) := by
  cases heffect : command.effect with
  | some e =>
    rw [apply_eq_carry heffect, apply_eq_carry heffect]
    exact h.carry e
  | none =>
    cases command with
    | createTable => cases heffect
    | createIndex => cases heffect
    | alter => cases heffect
    | use database =>
      refine ⟨?_, h.pending⟩
      simp only [Content.apply, h.out]
    | _ => exact h

end Content.Same

theorem resolvePendingKey_unlisted {key : PendingKey} (h : key.listed = false) (out : DdlSnapshot) :
    resolvePendingKey out key = out := by
  have hlocals : key.locals = [] := by simpa [PendingKey.listed] using h
  rw [resolvePendingKey]
  cases key.targetIn out with
  | none => rfl
  | some target =>
    have hrows : key.rows target = [] := by simp [PendingKey.rows, hlocals]
    simp only [hrows, List.append_nil]
    rw [modify_of_id fun _ => rfl]

theorem resolvePendingKeys_listed (out : DdlSnapshot) (pending : List PendingKey) :
    resolvePendingKeys out (pending.filter PendingKey.listed) = resolvePendingKeys out pending := by
  rw [resolvePendingKeys, resolvePendingKeys]
  induction pending generalizing out with
  | nil => rfl
  | cons key pending ih =>
    cases hlisted : key.listed with
    | true => rw [List.filter_cons_of_pos hlisted, List.foldl_cons, List.foldl_cons, ih]
    | false =>
      have hnot : ¬ key.listed = true := by
        rw [hlisted]
        exact Bool.false_ne_true
      rw [List.filter_cons_of_neg hnot, List.foldl_cons, resolvePendingKey_unlisted hlisted, ih]

/-- Keys without columns make no difference to the schema. -/
theorem Content.Same.schemaFrom [Dangling] {content content' : Content} (h : content.Same content')
    (text : Text) : schemaFrom content text = schemaFrom content' text := by
  have hspelling : ∀ {content content' : Content}, content.Same content' →
      content'.spelling = content.spelling := by
    intro content content' h
    funext parts
    rw [Content.spelling, Content.spelling, h.out]
  have hrelated := related_schemaFrom hspelling Content.Same.apply h text
  revert hrelated
  generalize Ddl.schemaFrom content text = out, Ddl.schemaFrom content' text = out'
  rintro (_ | hend)
  · rfl
  · rw [Content.finish, Content.finish, ← resolvePendingKeys_listed, hend.out, hend.pending,
      resolvePendingKeys_listed]

def Edit.Idle (keys : List Text) : Edit → Prop
  | .column _ => False
  | .index _ => False
  | .foreignKey _ => False
  | .key name => name ∈ keys
  | .pending _ locals => locals = []
  | .applyKeys => True
  | .note _ => True
  | .ignore _ => True

def Edit.Quiet (keys : List Text) (e : Edit) : Prop := e.waits ≠ [] ∨ e.Idle keys

theorem applyKeys_applyKeys (table : DdlTable) : applyKeys (applyKeys table) = applyKeys table := by
  simp only [applyKeys, List.map_map]
  congr 1
  refine List.map_congr_left fun row _ => ?_
  simp only [Function.comp_apply]
  split_ifs <;> simp_all

theorem onTable_quiet {items : List Edit} {table : DdlTable}
    (h : ∀ e ∈ items, e.Quiet table.primaryKey) :
    onTable (items ++ [.applyKeys]) table = applyKeys table := by
  induction items generalizing table with
  | nil => rfl
  | cons e items ih =>
    obtain ⟨he, hitems⟩ := List.forall_mem_cons.mp h
    have hstays : (e.onTable table).primaryKey = table.primaryKey ∧
        applyKeys (e.onTable table) = applyKeys table := by
      cases e with
      | column => exact (he.elim (fun hw => hw rfl) id).elim
      | index => exact (he.elim (fun hw => hw rfl) id).elim
      | foreignKey => exact (he.elim (fun hw => hw rfl) id).elim
      | key name =>
        have hmem : name ∈ table.primaryKey := he.resolve_left fun hw => hw rfl
        have hmark : markKey table name = table := if_pos (List.contains_iff_mem.mpr hmem)
        exact ⟨congrArg _ hmark, congrArg _ hmark⟩
      | applyKeys => exact ⟨rfl, applyKeys_applyKeys table⟩
      | _ => exact ⟨rfl, rfl⟩
    rw [← hstays.1] at hitems
    exact (ih hitems).trans hstays.2

/-- Something of a table that certain edits add one to and others leave. -/
theorem onTable_count (size : DdlTable → ℕ) {p : Edit → Bool}
    (h : ∀ e table, size (Edit.onTable e table) = size table + if p e then 1 else 0)
    (items : List Edit) (table : DdlTable) :
    size (onTable items table) = size table + items.countP p := by
  induction items generalizing table with
  | nil => rfl
  | cons e items ih =>
    change size (onTable items (e.onTable table)) = _
    rw [ih, h, List.countP_cons, Nat.add_assoc, Nat.add_comm (if p e then 1 else 0)]

def Edit.isColumn : Edit → Bool
  | .column _ => true
  | _ => false

def Edit.isIndex : Edit → Bool
  | .index _ => true
  | _ => false

def Edit.isForeignKey : Edit → Bool
  | .foreignKey _ => true
  | _ => false

theorem markKey_fields (table : DdlTable) (name : Text) :
    (markKey table name).columns = table.columns ∧ (markKey table name).indexes = table.indexes ∧
      (markKey table name).foreignKeys = table.foreignKeys := by
  rw [markKey]
  split_ifs <;> exact ⟨rfl, rfl, rfl⟩

section Count
variable (items : List Edit) (table : DdlTable)

theorem columns_count : (onTable items table).columns.length =
    table.columns.length + items.countP Edit.isColumn := by
  refine onTable_count (fun table => table.columns.length) (fun e table => ?_) items table
  cases e with
  | key name => exact congrArg List.length (markKey_fields table name).1
  | applyKeys => exact List.length_map _
  | _ => simp [Edit.onTable, Edit.isColumn]

theorem indexes_count : (onTable items table).indexes.length =
    table.indexes.length + items.countP Edit.isIndex := by
  refine onTable_count (fun table => table.indexes.length) (fun e table => ?_) items table
  cases e with
  | key name => exact congrArg List.length (markKey_fields table name).2.1
  | applyKeys => rfl
  | _ => simp [Edit.onTable, Edit.isIndex]

theorem foreignKeys_count : (onTable items table).foreignKeys.length =
    table.foreignKeys.length + items.countP Edit.isForeignKey := by
  refine onTable_count (fun table => table.foreignKeys.length) (fun e table => ?_) items table
  cases e with
  | key name => exact congrArg List.length (markKey_fields table name).2.2
  | applyKeys => rfl
  | _ => simp [Edit.onTable, Edit.isForeignKey]

/-- Key columns are never taken away, and each that is marked is one. -/
theorem mem_primaryKey {name : Text} (h : name ∈ table.primaryKey ∨ .key name ∈ items) :
    name ∈ (onTable items table).primaryKey := by
  induction items generalizing table with
  | nil => exact h.resolve_right List.not_mem_nil
  | cons e items ih =>
    refine ih (e.onTable table) ?_
    have hstays : name ∈ table.primaryKey → name ∈ (e.onTable table).primaryKey := by
      intro hmem
      cases e with
      | key other =>
        change name ∈ (markKey table other).primaryKey
        rw [markKey]
        split_ifs
        · exact hmem
        · exact List.mem_append_left _ hmem
      | _ => exact hmem
    rcases h with hmem | hmem
    · exact .inl (hstays hmem)
    · rcases List.mem_cons.mp hmem with rfl | hmem
      · refine .inl ?_
        change name ∈ (markKey table name).primaryKey
        rw [markKey]
        split_ifs with hthere
        · exact List.contains_iff_mem.mp hthere
        · exact List.mem_append_right _ List.mem_cons_self
      · exact .inr hmem

end Count

def Content.carriedOut (content : Content) (slot : ℕ) (items : List Edit) : Content :=
  content.change slot (onTable (items ++ [.applyKeys])) (items.flatMap Edit.waits)

section CarriedOut
variable {content : Content} {slot : ℕ} {table : DdlTable}
  (htable : content.out.tables[slot]? = some table)
include htable

theorem carriedOut_table (items : List Edit) :
    (content.carriedOut slot items).out.tables[slot]? = some (applyKeys (onTable items table)) := by
  rw [Content.carriedOut, Content.change]
  simp only [List.getElem?_modify_eq, htable]
  exact congrArg some (onTable_append items [.applyKeys] table)

/-- What the table is at the end of a script that says nothing more. -/
theorem carriedOut_finish (items : List Edit) :
    (content.carriedOut slot items).finish.tables[slot]? =
      some ((applyKeys (onTable items table)).withRows
        (rowsFor (content.carriedOut slot items).out slot
          (content.pending ++ waiting slot (items.flatMap Edit.waits)))) := by
  rw [Content.finish, resolvePendingKeys_table, carriedOut_table htable]
  rfl

/-- Edits that say nothing new make no difference to what is said afterwards. -/
theorem carriedOut_same {items late : List Edit}
    (h : ∀ e ∈ late, e.Idle (onTable items table).primaryKey) :
    (content.carriedOut slot items).Same (content.carriedOut slot (items ++ late)) := by
  have hquiet : onTable (items ++ [.applyKeys]) table =
      onTable (items ++ late ++ [.applyKeys]) table := by
    rw [onTable_append, List.append_assoc, onTable_append items (late ++ _),
      onTable_quiet fun e he => .inr (h e he)]
    rfl
  have hunlisted : (waiting slot (late.flatMap Edit.waits)).filter PendingKey.listed = [] := by
    refine List.filter_eq_nil_iff.mpr fun key hkey => ?_
    obtain ⟨wait, hwait, rfl⟩ := List.mem_map.mp hkey
    obtain ⟨e, he, hwait⟩ := List.mem_flatMap.mp hwait
    have hidle := h e he
    cases e with
    | pending target locals =>
      obtain rfl := List.mem_singleton.mp hwait
      have hlocals : locals = [] := hidle
      simp [PendingKey.listed, hlocals]
    | _ => cases hwait
  refine ⟨?_, ?_⟩
  · simp only [Content.carriedOut, Content.change, modify_congr htable hquiet]
  · simp only [Content.carriedOut, Content.change, List.flatMap_append, waiting, List.map_append,
      List.filter_append] at hunlisted ⊢
    rw [hunlisted, List.append_nil]

end CarriedOut

def someNames (count : ℕ) : List Text := (List.range count).map fun n => List.replicate (n + 1) 'a'

theorem someNames_word (count : ℕ) : ∀ name ∈ someNames count, Word name := by
  intro name hname
  obtain ⟨n, -, rfl⟩ := List.mem_map.mp hname
  refine ⟨rfl, List.all_eq_true.mpr fun c hc => ?_⟩
  rw [List.eq_of_mem_replicate hc]
  rfl

theorem someNames_nodup (count : ℕ) : (someNames count).Nodup := by
  refine List.Nodup.map (fun n m hnm => ?_) List.nodup_range
  have hlength := congrArg List.length hnm
  simpa using hlength

theorem onTable_keys {key : List Text} {table : DdlTable} (h : (table.primaryKey ++ key).Nodup) :
    (onTable (key.map .key) table).primaryKey = table.primaryKey ++ key := by
  induction key generalizing table with
  | nil => exact (List.append_nil _).symm
  | cons name key ih =>
    have hnot : name ∉ table.primaryKey := fun hmem =>
      (List.nodup_append.mp h).2.2 name hmem name List.mem_cons_self rfl
    have hmark : (markKey table name).primaryKey = table.primaryKey ++ [name] := by
      rw [markKey, if_neg fun hcontains => hnot (List.contains_iff_mem.mp hcontains)]
    have hnext : ((markKey table name).primaryKey ++ key).Nodup := by
      rw [hmark, List.append_assoc]
      exact h
    refine (ih hnext).trans ?_
    rw [hmark, List.append_assoc]
    rfl

def targetTable (name : Text) (key : List Text) : DdlTable :=
  onTable (key.map .key ++ [.applyKeys]) (freshTable [name])

theorem targetTable_ref (name : Text) (key : List Text) :
    (targetTable name key).ref = ⟨[], [], name⟩ := onTable_ref _ _

theorem targetTable_primaryKey {name : Text} {key : List Text} (h : key.Nodup) :
    (targetTable name key).primaryKey = key := by
  rw [targetTable, onTable_append]
  exact onTable_keys h

def Command.target (name : Text) (key : List Text) : Command :=
  .createTable [name] (key.map .key ++ [.applyKeys])

theorem target_effect (name : Text) (key : List Text) :
    (Command.target name key).effect = some ⟨[name], fun _ => targetTable name key, true, []⟩ := by
  have hwaits : (key.map Edit.key ++ [Edit.applyKeys]).flatMap Edit.waits = [] := by
    refine List.flatMap_eq_nil_iff.mpr fun e he => ?_
    rcases List.mem_append.mp he with hmem | hmem
    · obtain ⟨column, -, rfl⟩ := List.mem_map.mp hmem
      rfl
    · obtain rfl := List.mem_singleton.mp hmem
      rfl
  rw [Command.target, Command.effect, hwaits]
  rfl

theorem find_modify {p q : DdlTable → Bool} (himp : ∀ table, q table = true → p table = true)
    {tables : List DdlTable} {slot : ℕ} {target : DdlTable} (hq : q target = true)
    (h : tables.findIdx? p = some slot) : (tables.modify slot fun _ => target).find? q = some target := by
  induction tables generalizing slot with
  | nil => cases h
  | cons table tables ih =>
    rw [List.findIdx?_cons] at h
    by_cases hp : p table = true
    · rw [if_pos hp] at h
      obtain rfl := Option.some.inj h
      exact List.find?_cons_of_pos hq
    · rw [if_neg hp] at h
      obtain ⟨n, hn, rfl⟩ := Option.map_eq_some_iff.mp h
      have hnot : ¬ q table = true := fun hqt => hp (himp table hqt)
      rw [List.modify_succ_cons, List.find?_cons_of_neg hnot]
      exact ih hn

/-- Behind its statement every name that ends as the target's name finds the target. -/
theorem target_found (content : Content) (parts key : List Text) :
    ((findTable (content.apply (.target (lastPart parts) key)).out.tables parts).bind fun slot =>
      (content.apply (.target (lastPart parts) key)).out.tables[slot]?) =
        some (targetTable (lastPart parts) key) := by
  have hnames : names parts (targetTable (lastPart parts) key).ref = true := by
    rw [targetTable_ref]
    simp [names]
  have himp : ∀ table : DdlTable, names parts table.ref = true →
      names [lastPart parts] table.ref = true := fun table hnamed => by
    have hname := (Bool.and_eq_true_iff.mp hnamed).1
    simpa [names, lastPart] using hname
  rw [findTable, ← List.find?_eq_bind_findIdx?_getElem?, apply_eq_carry (target_effect _ _), Content.carry]
  cases hfind : findTable content.out.tables [lastPart parts] with
  | some slot => exact find_modify himp hnames hfind
  | none =>
    have hnone : content.out.tables.find? (fun table => names parts table.ref) = none := by
      refine List.find?_eq_none.mpr fun table hmem hnamed => ?_
      exact List.findIdx?_eq_none_iff.mp hfind table hmem ▸ himp table hnamed |> Bool.false_ne_true
    simp only [if_true]
    rw [List.find?_append, hnone, Option.none_or]
    exact List.find?_cons_of_pos hnames

theorem target_out (name : Text) (key : List Text) {content content' : Content}
    (h : content.out = content'.out) :
    (content.apply (.target name key)).out = (content'.apply (.target name key)).out := by
  rw [apply_eq_carry (target_effect _ _), apply_eq_carry (target_effect _ _), Content.carry,
    Content.carry, h]
  cases findTable content'.out.tables [name] with
  | some slot => simp only [Content.change, h]
  | none => rfl

theorem target_pending (content : Content) (name : Text) (key : List Text) :
    (content.apply (.target name key)).pending = content.pending := by
  rw [apply_eq_carry (target_effect _ _), Content.carry]
  cases findTable content.out.tables [name] with
  | some slot => exact List.append_nil _
  | none => exact List.append_nil _

theorem schemaFrom_target [Dangling] (content : Content) (name : Text) {key : List Text}
    (hkey : ∀ k ∈ key, Word k) (hne : key ≠ []) {rest : Text} (hrest : EndsStatement rest) :
    schemaFrom content (targetText name key ++ rest) =
      schemaFrom (content.apply (.target name key)) rest.tail := by
  have hsettled : Settled (targetText name key ++ rest) := settled_of_identStart rfl _
  have hsome : ¬ targetText name key ++ rest = [] := List.cons_ne_nil _ _
  rw [schemaFrom_eq, hsettled.read_skipBlanks, Option.bind_some, if_neg hsome,
    read_targetText name hkey hne hrest]
  rfl

section Late
variable [Dangling] {content : Content} {slot : ℕ} {table : DdlTable} {items late : List Edit}
  (htable : content.out.tables[slot]? = some table)
  (halike : ∀ r, (schemaFrom (content.carriedOut slot items) r).map (fun out => out.tables[slot]?) =
    (schemaFrom (content.carriedOut slot (items ++ late)) r).map fun out => out.tables[slot]?)
include htable halike

/-- Where the script says nothing more, the table shows every edit but a key that waits. -/
theorem late_quiet : ∀ e ∈ late, e.Quiet (onTable items table).primaryKey := by
  have hend := halike []
  rw [schemaFrom_nil, schemaFrom_nil, Option.map_some, Option.map_some, carriedOut_finish htable,
    carriedOut_finish htable] at hend
  have heq := Option.some.inj (Option.some.inj hend)
  have hcolumns : (onTable items table).columns.length =
      (onTable (items ++ late) table).columns.length := by
    have hlength := congrArg (fun table => table.columns.length) heq
    simpa [DdlTable.withRows, applyKeys] using hlength
  have hindexes : (onTable items table).indexes = (onTable (items ++ late) table).indexes :=
    (congrArg DdlTable.indexes heq :)
  have hkeys : (onTable items table).primaryKey = (onTable (items ++ late) table).primaryKey :=
    (congrArg DdlTable.primaryKey heq :)
  have hbare : (applyKeys (onTable items table)).bare = (applyKeys (onTable (items ++ late) table)).bare :=
    (congrArg DdlTable.bare heq :)
  have hrows := congrArg (fun table => table.foreignKeys.length) heq
  rw [onTable_append, columns_count late] at hcolumns
  rw [onTable_append] at hindexes hkeys
  have hindexCount := congrArg List.length hindexes
  rw [indexes_count late] at hindexCount
  have htables : (content.carriedOut slot items).out.tables.map DdlTable.bare =
      (content.carriedOut slot (items ++ late)).out.tables.map DdlTable.bare := by
    refine List.ext_getElem? fun n => ?_
    rw [List.getElem?_map, List.getElem?_map]
    by_cases hn : slot = n
    · subst hn
      rw [carriedOut_table htable, carriedOut_table htable]
      exact congrArg some hbare
    · simp only [Content.carriedOut, Content.change, List.getElem?_modify, if_neg hn]
  have hcount : late.countP Edit.isForeignKey = 0 := by
    have happly : ∀ table, (applyKeys table).foreignKeys = table.foreignKeys := fun _ => rfl
    simp only [DdlTable.withRows, List.length_append, happly, onTable_append, foreignKeys_count late,
      ← rowsFor_congr htables, List.flatMap_append, waiting, List.map_append, rowsFor_append] at hrows
    omega
  intro e he
  cases e with
  | column row =>
    have hpos : 0 < late.countP Edit.isColumn := List.countP_pos_iff.mpr ⟨_, he, rfl⟩
    omega
  | index row =>
    have hpos : 0 < late.countP Edit.isIndex := List.countP_pos_iff.mpr ⟨_, he, rfl⟩
    omega
  | foreignKey row =>
    have hpos : 0 < late.countP Edit.isForeignKey := List.countP_pos_iff.mpr ⟨_, he, rfl⟩
    omega
  | key name =>
    refine .inr ?_
    change name ∈ (onTable items table).primaryKey
    rw [hkeys]
    exact mem_primaryKey late _ (.inr he)
  | pending target locals => exact .inl (List.cons_ne_nil _ _)
  | _ => exact .inr trivial

/-- A script can name the columns that a late key waits for, so no late key has columns. -/
theorem late_idle : ∀ e ∈ late, e.Idle (onTable items table).primaryKey := by
  have hquiet := late_quiet htable halike
  have hsame : onTable (items ++ [.applyKeys]) table = onTable (items ++ late ++ [.applyKeys]) table := by
    rw [onTable_append, List.append_assoc, onTable_append items (late ++ _), onTable_quiet hquiet]
    rfl
  have hout : (content.carriedOut slot items).out = (content.carriedOut slot (items ++ late)).out := by
    simp only [Content.carriedOut, Content.change, modify_congr htable hsame]
  intro e he
  cases e with
  | pending target locals =>
    change locals = []
    by_contra hne
    let key := someNames locals.length
    have hlength : key.length = locals.length := by simp [key, someNames]
    have hkey : key ≠ [] := fun hnil => hne (List.length_eq_zero_iff.mp (by rw [← hlength, hnil]; rfl))
    let content₁ := (content.carriedOut slot items).apply (.target (lastPart target) key)
    let content₂ := (content.carriedOut slot (items ++ late)).apply (.target (lastPart target) key)
    have hsays := halike (targetText (lastPart target) key ++ [])
    rw [schemaFrom_target _ _ (someNames_word _) hkey (.inl rfl),
      schemaFrom_target _ _ (someNames_word _) hkey (.inl rfl), List.tail_nil, schemaFrom_nil,
      schemaFrom_nil, Option.map_some, Option.map_some, Content.finish, Content.finish,
        resolvePendingKeys_table,
      resolvePendingKeys_table] at hsays
    have hout' : content₁.out = content₂.out := target_out _ _ hout
    have hpending : content₂.pending = content₁.pending ++ waiting slot (late.flatMap Edit.waits) := by
      simp only [content₁, content₂, target_pending, Content.carriedOut, Content.change,
        List.flatMap_append, waiting, List.map_append, List.append_assoc]
    have hlt : slot < content₁.out.tables.length := by
      have hslot : slot < (content.carriedOut slot items).out.tables.length :=
        (List.getElem?_eq_some_iff.mp (carriedOut_table htable items)).1
      exact Nat.lt_of_lt_of_le hslot (apply_length _ _)
    change some (Option.map _ (content₁.out.tables[slot]?)) =
      some (Option.map _ (content₂.out.tables[slot]?)) at hsays
    rw [← hout', hpending, List.getElem?_eq_getElem hlt] at hsays
    have hrows := congrArg DdlTable.foreignKeys (Option.some.inj (Option.some.inj hsays))
    have hnil := List.self_eq_append_right.mp (List.append_cancel_left
      (hrows.trans (congrArg (_ ++ ·) (rowsFor_append content₁.out slot _ _))))
    rw [rowsFor_waiting] at hnil
    have hwaits : (⟨slot, target, locals⟩ : PendingKey) ∈ waiting slot (late.flatMap Edit.waits) :=
      List.mem_map.mpr ⟨(target, locals), List.mem_flatMap.mpr ⟨_, he, List.mem_cons_self⟩, rfl⟩
    have hnone := List.flatMap_eq_nil_iff.mp hnil _ hwaits
    have hprimary : (targetTable (lastPart target) key).primaryKey = key :=
      targetTable_primaryKey (someNames_nodup _)
    have hfound : PendingKey.targetIn ⟨slot, target, locals⟩ content₁.out =
        some (targetTable (lastPart target) key) := by
      rw [PendingKey.targetIn, target_found, Option.filter_some, if_pos]
      rw [hprimary, hlength, beq_self_eq_true]
    rw [keyRows, hfound] at hnone
    have hzip := congrArg List.length hnone
    simp only [PendingKey.rows, List.length_map, List.length_zip, hprimary, hlength, Nat.min_self,
      List.length_nil] at hzip
    exact hne (List.length_eq_zero_iff.mp hzip)
  | _ => exact (hquiet _ he).resolve_left fun hw => hw rfl

end Late

end Uniorm.Ddl
