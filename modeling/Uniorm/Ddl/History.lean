import Uniorm.Ddl.Effect

/-! # What a script says of one table

A statement that says something of a table says it of one table of the
snapshot. What all of them say of a table, one after the other, is the table's
history, and the table is what its history comes to from the last definition
on. Only the keys that wait for their target's primary key are remembered from
before.
-/
namespace Uniorm.Ddl

open Foundation Foundation.Scan Sql Builder Schema

/-- What a command says of the table its name finds; a definition begins the table anew. -/
structure Saying where
  parts : List Text
  defines : Bool
  items : List Edit

def Command.saying : Command → Option Saying
  | .createTable parts items => some ⟨parts, true, items⟩
  | .createIndex name parts columns unique =>
    some ⟨parts, false, [.index ⟨indexName name columns "index".toList, columns, unique⟩]⟩
  | .alter parts items => some ⟨parts, false, items⟩
  | _ => none

namespace Saying

def table (s : Saying) (table : DdlTable) : DdlTable :=
  onTable s.items (if s.defines then freshTable s.parts else table)

def waits (s : Saying) : List Wait := s.items.flatMap Edit.waits

def effect (s : Saying) : Effect := ⟨s.parts, s.table, s.defines, s.waits⟩

end Saying

theorem effect_eq_saying (command : Command) : command.effect = command.saying.map Saying.effect := by
  cases command <;> rfl

/-- The table of the snapshot that is meant: the one the name finds, or a new one. -/
def Content.meant (content : Content) (s : Saying) : Option ℕ :=
  match findTable content.out.tables s.parts with
  | some slot => some slot
  | none => if s.defines then some content.out.tables.length else none

def Content.history (slot : ℕ) : Content → List Command → List Saying
  | _, [] => []
  | content, command :: commands =>
    command.saying.toList.filter (fun s => content.meant s = some slot) ++
      history slot (content.apply command) commands

def Content.waitingFor (content : Content) (slot : ℕ) : List PendingKey :=
  content.pending.filter fun key => key.owner == slot

section Step
variable (content : Content) (s : Saying) (slot : ℕ)

theorem findTable_getElem? {tables : List DdlTable} {parts : List Text} {n : ℕ}
    (h : findTable tables parts = some n) : ∃ table, tables[n]? = some table := by
  rw [findTable, List.findIdx?_eq_some_iff_getElem] at h
  obtain ⟨hlt, -⟩ := h
  exact ⟨_, List.getElem?_eq_getElem hlt⟩

theorem carry_getElem? : (content.carry s.effect).out.tables[slot]? =
    if content.meant s = some slot then
      some (s.table ((content.out.tables[slot]?).getD (freshTable s.parts)))
    else content.out.tables[slot]? := by
  rw [Content.carry, Content.meant, Saying.effect]
  cases hfind : findTable content.out.tables s.parts with
  | some n =>
    obtain ⟨table, htable⟩ := findTable_getElem? hfind
    simp only [Content.change, List.getElem?_modify, Option.some.injEq]
    by_cases hslot : n = slot
    · subst hslot
      simp [htable]
    · simp [hslot]
  | none =>
    cases hdefines : s.defines with
    | false => simp
    | true =>
      simp only [if_true, Option.some.injEq]
      by_cases hslot : content.out.tables.length = slot
      · subst hslot
        simp
      · rw [if_neg hslot, List.getElem?_append]
        by_cases hlt : slot < content.out.tables.length
        · rw [if_pos hlt]
        · have hpast : slot - content.out.tables.length ≠ 0 := by omega
          rw [if_neg hlt, List.getElem?_singleton, if_neg hpast,
            List.getElem?_eq_none (Nat.not_lt.mp hlt)]

theorem filter_waiting (n : ℕ) (waits : List Wait) :
    (waiting n waits).filter (fun key => key.owner == slot) =
      if n = slot then waiting slot waits else [] := by
  split_ifs with hslot
  · subst hslot
    refine List.filter_eq_self.mpr fun key hkey => ?_
    obtain ⟨wait, -, rfl⟩ := List.mem_map.mp hkey
    exact beq_self_eq_true n
  · refine List.filter_eq_nil_iff.mpr fun key hkey => ?_
    obtain ⟨wait, -, rfl⟩ := List.mem_map.mp hkey
    simpa using hslot

theorem carry_waitingFor : (content.carry s.effect).waitingFor slot = content.waitingFor slot ++
    if content.meant s = some slot then waiting slot s.waits else [] := by
  rw [Content.carry, Content.meant, Saying.effect]
  cases hfind : findTable content.out.tables s.parts with
  | some n =>
    simp only [Content.change, Content.waitingFor, List.filter_append, filter_waiting,
      Option.some.injEq]
  | none =>
    cases hdefines : s.defines with
    | false => simp
    | true =>
      simp only [if_true, Content.waitingFor, List.filter_append, filter_waiting, Option.some.injEq]

/-- The table of a slot, there or not, after something was said of it. -/
def Saying.step (table : Option DdlTable) (s : Saying) : Option DdlTable :=
  some (s.table (table.getD (freshTable s.parts)))

theorem apply_history (command : Command) :
    (content.apply command).out.tables[slot]? =
      (command.saying.toList.filter fun s => content.meant s = some slot).foldl Saying.step
        content.out.tables[slot]? ∧
    (content.apply command).waitingFor slot = content.waitingFor slot ++
      (command.saying.toList.filter fun s => content.meant s = some slot).flatMap fun s =>
        waiting slot s.waits := by
  have heffect := effect_eq_saying command
  cases hsaying : command.saying with
  | none =>
    rw [hsaying] at heffect
    obtain ⟨htables, hpending⟩ := apply_tables heffect content
    rw [Content.waitingFor, hpending, htables]
    simp [Content.waitingFor]
  | some s =>
    rw [hsaying] at heffect
    rw [apply_eq_carry heffect, carry_getElem?, carry_waitingFor]
    by_cases hmeant : content.meant s = some slot <;> simp [hmeant, Saying.step]

end Step

theorem run_history (slot : ℕ) (content : Content) (commands : List Command) :
    (content.run commands).out.tables[slot]? =
      (content.history slot commands).foldl Saying.step content.out.tables[slot]? ∧
    (content.run commands).waitingFor slot = content.waitingFor slot ++
      (content.history slot commands).flatMap fun s => waiting slot s.waits := by
  induction commands generalizing content with
  | nil => exact ⟨rfl, (List.append_nil _).symm⟩
  | cons command commands ih =>
    obtain ⟨htable, hwaits⟩ := apply_history content slot command
    obtain ⟨hrun, hrest⟩ := ih (content.apply command)
    rw [Content.run, List.foldl_cons, ← Content.run, hrun, hrest, htable, hwaits, Content.history,
      List.foldl_append, List.flatMap_append, List.append_assoc]
    exact ⟨rfl, rfl⟩

/-- Nothing is said of a table that was never defined. -/
theorem not_meant {content : Content} {s : Saying} {slot : ℕ} (hnone : content.out.tables[slot]? = none)
    (hdefines : s.defines = false) : content.meant s ≠ some slot := by
  rw [Content.meant]
  cases hfind : findTable content.out.tables s.parts with
  | some n =>
    obtain ⟨table, htable⟩ := findTable_getElem? hfind
    rintro heq
    obtain rfl := Option.some.inj heq
    rw [hnone] at htable
    cases htable
  | none => simp [hdefines]

/-- The first that is said of a new table is a definition. -/
theorem history_defined {slot : ℕ} {content : Content} (hnone : content.out.tables[slot]? = none)
    {commands : List Command} (hne : content.history slot commands ≠ []) :
    ∃ s ∈ content.history slot commands, s.defines = true := by
  induction commands generalizing content with
  | nil => exact absurd rfl hne
  | cons command commands ih =>
    rw [Content.history] at hne ⊢
    cases hsaid : command.saying.toList.filter fun s => content.meant s = some slot with
    | nil =>
      rw [hsaid, List.nil_append] at hne
      rw [List.nil_append]
      refine ih ?_ hne
      rw [(apply_history content slot command).1, hsaid, List.foldl_nil, hnone]
    | cons s more =>
      have hs : s ∈ command.saying.toList.filter fun s => content.meant s = some slot := by
        rw [hsaid]
        exact List.mem_cons_self
      have hmeant : content.meant s = some slot := by
        simpa using (List.mem_filter.mp hs).2
      refine ⟨s, List.mem_append_left _ List.mem_cons_self, ?_⟩
      by_contra hdefines
      exact not_meant hnone (Bool.not_eq_true _ ▸ hdefines) hmeant

/-- What is said behind a definition adds to it. -/
theorem foldl_step_later {later : List Saying} (h : ∀ s ∈ later, s.defines = false)
    (table : DdlTable) : later.foldl Saying.step (some table) =
      some (onTable (later.flatMap Saying.items) table) := by
  induction later generalizing table with
  | nil => rfl
  | cons s later ih =>
    have hfirst : Saying.step (some table) s = some (onTable s.items table) := by
      rw [Saying.step, Saying.table, h s List.mem_cons_self]
      rfl
    rw [List.foldl_cons, hfirst, ih fun s' hs' => h s' (List.mem_cons_of_mem _ hs'),
      List.flatMap_cons, onTable_append]

/-- What the last definition of a table and what is said of it afterwards make. -/
def ownTable (definition : Saying) (later : List Saying) : DdlTable :=
  onTable ((definition :: later).flatMap Saying.items) (freshTable definition.parts)

def waitedRows (out : DdlSnapshot) (slot : ℕ) (sayings : List Saying) : List ForeignKeyRow :=
  (sayings.flatMap fun s => waiting slot s.waits).flatMap (keyRows out)

theorem withRows_inj {table : DdlTable} {rows rows' : List ForeignKeyRow} :
    table.withRows rows = table.withRows rows' ↔ rows = rows' := by
  constructor
  · intro h
    exact List.append_cancel_left (congrArg DdlTable.foreignKeys h)
  · rintro rfl
    rfl

/-- A table is what is said of it from its last definition on, with the rows of all keys that ever
waited for it; what was said before leaves a trace only in these. -/
theorem table_is_its_last_definition [Dangling] {script : Text} {out : DdlSnapshot} {warnings : List Text}
    (h : parseDdl script = .ok (out, warnings)) :
    ∃ commands, Commands {} script commands ∧ ∀ slot table, out.tables[slot]? = some table →
      ∃ earlier definition later,
        Content.history slot {} commands = earlier ++ definition :: later ∧
        definition.defines = true ∧ (∀ s ∈ later, s.defines = false) ∧
        table = (ownTable definition later).withRows
          (waitedRows out slot earlier ++ waitedRows out slot (definition :: later)) ∧
        (table = (ownTable definition later).withRows (waitedRows out slot (definition :: later)) ↔
          waitedRows out slot earlier = []) := by
  have hschema : schemaOf script = some out := by rw [schemaOf, h]
  rw [schemaOf_eq, schemaFrom_eq_some_iff] at hschema
  obtain ⟨commands, hcommands, rfl⟩ := hschema
  refine ⟨commands, hcommands, fun slot table htable => ?_⟩
  obtain ⟨hrun, hwaits⟩ := run_history slot {} commands
  rw [Content.finish, resolvePendingKeys_table] at htable
  obtain ⟨bare, hbare, rfl⟩ := Option.map_eq_some_iff.mp htable
  have hne : Content.history slot {} commands ≠ [] := by
    intro hnil
    rw [hrun, hnil] at hbare
    cases hbare
  obtain ⟨earlier, definition, later, hhistory, hdefines, hlater⟩ :=
    exists_last (history_defined rfl hne)
  have hown : bare = ownTable definition later := by
    have hdefined : ∀ table, Saying.step table definition =
        some (onTable definition.items (freshTable definition.parts)) := fun table => by
      rw [Saying.step, Saying.table, if_pos hdefines]
    rw [hrun, hhistory, List.foldl_append, List.foldl_cons, hdefined, foldl_step_later hlater] at hbare
    rw [← Option.some.inj hbare, ownTable, List.flatMap_cons, onTable_append]
  have hkeys : ∀ sayings : List Saying, (sayings.flatMap fun s => waiting slot s.waits).flatMap
      (keyRows (Content.run {} commands).out) =
        waitedRows (Content.run {} commands).finish slot sayings := fun sayings => by
    rw [waitedRows]
    refine List.flatMap_congr fun key _ => keyRows_keyed ?_ key
    exact (resolvePendingKeys_keyed _ _).symm
  have hrows : rowsFor (Content.run {} commands).out slot (Content.run {} commands).pending =
      waitedRows (Content.run {} commands).finish slot earlier ++
        waitedRows (Content.run {} commands).finish slot (definition :: later) := by
    have hall : (Content.run {} commands).waitingFor slot =
        (earlier ++ definition :: later).flatMap fun s => waiting slot s.waits := by
      rw [hwaits, hhistory]
      rfl
    rw [← hkeys, ← hkeys, rowsFor, ← Content.waitingFor, hall, List.flatMap_append,
      List.flatMap_append]
  refine ⟨earlier, definition, later, hhistory, hdefines, hlater, by rw [hown, hrows], ?_⟩
  rw [hown, hrows, withRows_inj, List.append_left_eq_self]

/-- The result for a script, by what is known at its end. -/
theorem parseDdl_of_read [Dangling] {script rest : Text} {progress : Progress}
    (h : (parseScript {}).read script = some (progress, rest)) :
    parseDdl script = .ok (progress.content.finish, (reportPendingKeys progress.content.out
      progress.content.pending progress.sink).flush) := by
  rw [Scan.read] at h
  rw [parseDdl]
  cases hrun : (parseScript {}).run ⟨script, 1⟩ with
  | error e =>
    rw [hrun] at h
    cases h
  | ok r =>
    rw [hrun, forgetLines_ok] at h
    obtain rfl : r.1 = progress := (Prod.mk.inj (Option.some.inj h)).1
    rfl

/-- What a script says is a result of it, with some warnings. -/
theorem parseDdl_of_commands [Dangling] {script : Text} {commands : List Command}
    (h : Commands {} script commands) :
    ∃ warnings, parseDdl script = .ok ((Content.run {} commands).finish, warnings) := by
  have hschema : schemaOf script = some (Content.run {} commands).finish := by
    rw [schemaOf_eq, schemaFrom_eq_some_iff]
    exact ⟨commands, h, rfl⟩
  rw [schemaOf] at hschema
  cases hparse : parseDdl script with
  | error e =>
    rw [hparse] at hschema
    cases hschema
  | ok r =>
    rw [hparse] at hschema
    exact ⟨r.2, congrArg (fun out => Except.ok (out, r.2)) (Option.some.inj hschema)⟩

section Small
attribute [local instance] Dangling.small

/-- A table that is defined twice, the first time with a key that waits. -/
def definedTwice : Text :=
  "create table a(i int primary key);create table b(x int references a);create table b(x int)".toList

/-- The table of the last definition, with the row of the key of the first. -/
def withOldKey : DdlTable :=
  ⟨⟨[], [], ['b']⟩, [⟨⟨['x'], .integer, true⟩, ['I', 'N', 'T'], 0, 0, none⟩], [],
    [⟨['a'], ['i'], ['x']⟩], []⟩

/-- What the two definitions of the table say. -/
def oldSaying : Saying :=
  ⟨[['b']], true, [.pending [['a']] [['x']], .column ⟨⟨['x'], .integer, true⟩, ['I', 'N', 'T'], 0, 0, none⟩,
    .applyKeys]⟩

def newSaying : Saying :=
  ⟨[['b']], true, [.column ⟨⟨['x'], .integer, true⟩, ['I', 'N', 'T'], 0, 0, none⟩, .applyKeys]⟩

def twiceCommands : List Command :=
  [.createTable [['a']] [.key ['i'], .column ⟨⟨['i'], .integer, false⟩, ['I', 'N', 'T'], 0, 0, none⟩,
    .applyKeys], .createTable oldSaying.parts oldSaying.items,
    .createTable newSaying.parts newSaying.items]

theorem definedTwice_commands : Commands {} definedTwice twiceCommands := by
  have hlast : Commands (Content.run {} (twiceCommands.take 2)) "create table b(x int)".toList
      [.createTable newSaying.parts newSaying.items] :=
    @Commands.next _ _ _ "create table b(x int)".toList [] _ _ rfl (List.cons_ne_nil _ _)
      (by decide +kernel) (.done rfl)
  have hsecond : Commands (Content.run {} (twiceCommands.take 1))
      "create table b(x int references a);create table b(x int)".toList (twiceCommands.drop 1) :=
    @Commands.next _ _ _ _ "create table b(x int)".toList _ _ rfl (List.cons_ne_nil _ _)
      (by decide +kernel) hlast
  exact @Commands.next _ _ _ _ "create table b(x int references a);create table b(x int)".toList _ _
    rfl (List.cons_ne_nil _ _) (by decide +kernel) hsecond

theorem old_key_is_read : ∃ commands, Commands {} definedTwice commands ∧
    ∃ earlier definition later out, Content.history 1 {} commands = earlier ++ definition :: later ∧
      definition.defines = true ∧ withOldKey = (ownTable definition later).withRows
        (waitedRows out 1 earlier ++ waitedRows out 1 (definition :: later)) ∧
      waitedRows out 1 earlier ≠ [] := by
  obtain ⟨warnings, hparse⟩ := parseDdl_of_commands definedTwice_commands
  obtain ⟨commands, hcommands, htables⟩ := table_is_its_last_definition hparse
  obtain rfl := hcommands.unique definedTwice_commands
  obtain ⟨earlier, definition, later, hhistory, hdefines, hlater, htable, -⟩ :=
    htables 1 withOldKey rfl
  refine ⟨twiceCommands, hcommands, earlier, definition, later, _, hhistory, hdefines, htable, ?_⟩
  have hboth : Content.history 1 {} twiceCommands = [oldSaying, newSaying] := rfl
  rw [hboth] at hhistory
  rcases earlier with _ | ⟨first, _ | ⟨second, rest⟩⟩
  · obtain ⟨rfl, rfl⟩ := List.cons.inj hhistory
    exact absurd (hlater newSaying List.mem_cons_self) (by decide)
  · obtain ⟨rfl, -⟩ := List.cons.inj hhistory
    decide +kernel
  · have hlength := congrArg List.length hhistory
    simp at hlength

end Small

end Uniorm.Ddl
