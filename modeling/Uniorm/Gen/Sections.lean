import Uniorm.Foundation.Action
import Uniorm.Gen.Config

/-! # The sections of a config

What a text says line by line, and what its reading comes to: the keys that are
known leave the names of their sections, and these are what is looked up in the
catalog. A section without keys leaves nothing.
-/
namespace Uniorm.Gen

open Foundation Sql Builder Cpp

inductive Item where
  | header (parts : List Text)
  | setting (kv : KeyValue)
  deriving DecidableEq, Repr

inductive LinesRead : List (Text × ℕ) → List Item → Prop
  | nil : LinesRead [] []
  | blank {l : Text × ℕ} {lines : List (Text × ℕ)} {items : List Item} (hline : l.1 = [])
      (hmore : LinesRead lines items) : LinesRead (l :: lines) items
  | header {l : Text × ℕ} {cs : Text} {parts : List Text} {lines : List (Text × ℕ)} {items : List Item}
      (hline : l.1 = '[' :: cs) (hread : parseSection l.2 l.1 = .ok parts)
      (hmore : LinesRead lines items) : LinesRead (l :: lines) (.header parts :: items)
  | setting {l : Text × ℕ} {kv : KeyValue} {lines : List (Text × ℕ)} {items : List Item}
      (hne : l.1 ≠ []) (hline : l.1.head? ≠ some '[') (hread : parseKeyValue l.2 l.1 = .ok kv)
      (hmore : LinesRead lines items) : LinesRead (l :: lines) (.setting kv :: items)

def Says (toml : Text) (items : List Item) : Prop := LinesRead (numberedLines toml) items

/-- The keys with the section each stands under. -/
def settings : List Text → List Item → List (List Text × KeyValue)
  | _, [] => []
  | _, .header parts :: items => settings parts items
  | parts, .setting kv :: items => (parts, kv) :: settings parts items

def TableKey (kv : KeyValue) : Prop :=
  (kv.key = "class".toList ∧ isQuoted kv.value = true) ∨
    (kv.key = "skip".toList ∧ (kv.value = "true".toList ∨ kv.value = "false".toList))

def ColumnKey (kv : KeyValue) : Prop :=
  (kv.key = "cpp_type".toList ∨ kv.key = "converter".toList) ∧ isQuoted kv.value = true

inductive KnownSetting : List Text → KeyValue → Prop
  | types {kv : KeyValue} (hvalue : isQuoted kv.value = true) : KnownSetting ["types".toList] kv
  | table {kv : KeyValue} (name : Text) (hkey : TableKey kv) : KnownSetting ["tables".toList, name] kv
  | column {kv : KeyValue} (name column : Text) (hkey : ColumnKey kv) :
      KnownSetting ["tables".toList, name, "columns".toList, column] kv

def Named : List Text → Prop
  | [_, table] => table ≠ []
  | [_, table, _, column] => table ≠ [] ∧ column ≠ []
  | _ => True

theorem parseStringValue_ok_iff {value : Text} {line : ℕ} {context : Text} :
    (∃ t, parseStringValue value line context = .ok t) ↔ isQuoted value = true := by
  rw [parseStringValue]
  by_cases h : isQuoted value = true
  · rw [if_pos h]
    exact iff_of_true ⟨_, rfl⟩ h
  · rw [if_neg h]
    exact iff_of_false (by rintro ⟨t, ht⟩; cases ht) h

theorem parseBoolValue_ok_iff {value : Text} {line : ℕ} {context : Text} :
    (∃ b, parseBoolValue value line context = .ok b) ↔ value = "true".toList ∨ value = "false".toList := by
  rw [parseBoolValue]
  by_cases htrue : value = "true".toList
  · rw [if_pos htrue]
    exact iff_of_true ⟨_, rfl⟩ (.inl htrue)
  · rw [if_neg htrue]
    by_cases hfalse : value = "false".toList
    · rw [if_pos hfalse]
      exact iff_of_true ⟨_, rfl⟩ (.inr hfalse)
    · rw [if_neg hfalse]
      exact iff_of_false (by rintro ⟨b, hb⟩; cases hb) (not_or.mpr ⟨htrue, hfalse⟩)

theorem exists_bind_pure {α β : Type} {x : Except Text α} {f : α → β} :
    (∃ b, (x >>= fun a => pure (f a)) = .ok b) ↔ ∃ a, x = .ok a := by
  cases x with
  | error e => exact iff_of_false (by rintro ⟨b, hb⟩; cases hb) (by rintro ⟨a, ha⟩; cases ha)
  | ok a => exact iff_of_true ⟨f a, rfl⟩ ⟨a, rfl⟩

theorem tableSetting_ok_iff {kv : KeyValue} {line : ℕ} :
    (∃ change, tableSetting kv line = .ok change) ↔ TableKey kv := by
  have hne : "skip".toList ≠ "class".toList := by decide
  rw [tableSetting, TableKey]
  by_cases hclass : kv.key = "class".toList
  · rw [if_pos hclass, exists_bind_pure, parseStringValue_ok_iff, hclass]
    exact ⟨fun h => .inl ⟨rfl, h⟩, fun h => h.elim And.right fun h => absurd h.1.symm hne⟩
  · rw [if_neg hclass]
    by_cases hskip : kv.key = "skip".toList
    · rw [if_pos hskip, exists_bind_pure, parseBoolValue_ok_iff]
      exact ⟨fun h => .inr ⟨hskip, h⟩, fun h => h.elim (fun h => absurd h.1 hclass) And.right⟩
    · rw [if_neg hskip]
      exact iff_of_false (by rintro ⟨b, hb⟩; cases hb)
        (by rintro (h | h); exacts [hclass h.1, hskip h.1])

theorem columnSetting_ok_iff {kv : KeyValue} {line : ℕ} :
    (∃ change, columnSetting kv line = .ok change) ↔ ColumnKey kv := by
  rw [columnSetting, ColumnKey]
  by_cases htype : kv.key = "cpp_type".toList
  · rw [if_pos htype, exists_bind_pure, parseStringValue_ok_iff]
    exact ⟨fun h => ⟨.inl htype, h⟩, And.right⟩
  · rw [if_neg htype]
    by_cases hconverter : kv.key = "converter".toList
    · rw [if_pos hconverter, exists_bind_pure, parseStringValue_ok_iff]
      exact ⟨fun h => ⟨.inr hconverter, h⟩, And.right⟩
    · rw [if_neg hconverter]
      exact iff_of_false (by rintro ⟨b, hb⟩; cases hb)
        (by rintro ⟨h | h, -⟩; exacts [htype h, hconverter h])

def entryTargets (e : Text × TableEntry) : List (Text × Option Text) :=
  (e.1, none) :: e.2.columns.map fun c => (e.1, some c.1)

def Config.targets (cfg : Config) : List (Text × Option Text) := cfg.tables.flatMap entryTargets

/-- The tables a config names are those the generator finds in it. -/
theorem genConfig_tables_isSome (cfg : Config) (key : Text) :
    (cfg.genConfig.tables key).isSome = true ↔ (key, none) ∈ cfg.targets := by
  rw [Config.genConfig, Option.isSome_map, findEntry, Option.isSome_map, List.find?_isSome,
    Config.targets, List.mem_flatMap]
  refine exists_congr fun e => and_congr_right fun _ => ?_
  simp [entryTargets, eq_comm]

def sectionTargets : List Text → List (Text × Option Text)
  | [_, table] => [(foldLower table, none)]
  | [_, table, _, column] => [(foldLower table, none), (foldLower table, some (foldLower column))]
  | _ => []

theorem mem_changeEntry {α : Type} {key k : Text} {default : α} {change : α → α}
    {entries : List (Text × α)} : k ∈ (changeEntry key default change entries).map Prod.fst ↔
      k ∈ entries.map Prod.fst ∨ k = key := by
  fun_induction changeEntry key default change entries with
  | case1 => simp
  | case2 a entries =>
    simp only [List.map_cons, List.mem_cons]
    tauto
  | case3 k' a entries hne ih =>
    rw [List.map_cons, List.mem_cons, ih, List.map_cons, List.mem_cons]
    tauto

theorem mem_targets_changeTable {cfg : Config} {name : Text} {change : TableEntry → TableEntry}
    {more : List Text} (hchange : ∀ t c, c ∈ (change t).columns.map Prod.fst ↔
      c ∈ t.columns.map Prod.fst ∨ c ∈ more) (p : Text × Option Text) :
    p ∈ (changeTable cfg name change).targets ↔ p ∈ cfg.targets ∨
      p = (foldLower name, none) ∨ ∃ c ∈ more, p = (foldLower name, some c) := by
  have hentry : ∀ (k : Text) (t : TableEntry), p ∈ entryTargets (k, change t) ↔
      p ∈ entryTargets (k, t) ∨ ∃ c ∈ more, p = (k, some c) := by
    intro k t
    have hcolumns : ∀ t : TableEntry, (p ∈ t.columns.map fun c => (k, some c.1)) ↔
        ∃ c ∈ t.columns.map Prod.fst, p = (k, some c) := by
      intro t
      simp only [List.mem_map, exists_exists_and_eq_and, @eq_comm _ p]
    rw [entryTargets, entryTargets, List.mem_cons, List.mem_cons, hcolumns, hcolumns, or_assoc]
    refine or_congr_right ?_
    simp only [hchange]
    constructor
    · rintro ⟨c, hc | hc, rfl⟩
      · exact .inl ⟨c, hc, rfl⟩
      · exact .inr ⟨c, hc, rfl⟩
    · rintro (⟨c, hc, rfl⟩ | ⟨c, hc, rfl⟩)
      · exact ⟨c, .inl hc, rfl⟩
      · exact ⟨c, .inr hc, rfl⟩
  rw [Config.targets, changeTable, Config.targets]
  generalize cfg.tables = entries
  fun_induction changeEntry (foldLower name) {} change entries with
  | case1 =>
    have hdefault : entryTargets (foldLower name, ({} : TableEntry)) = [(foldLower name, none)] := rfl
    simp only [List.flatMap_cons, List.flatMap_nil, List.append_nil, hentry, hdefault,
      List.mem_singleton, List.not_mem_nil, false_or]
  | case2 t entries =>
    have hown : (foldLower name, none) ∈ entryTargets (foldLower name, t) := List.mem_cons_self
    simp only [List.flatMap_cons, List.mem_append, hentry]
    constructor
    · rintro ((h | h) | h)
      · exact .inl (.inl h)
      · exact .inr (.inr h)
      · exact .inl (.inr h)
    · rintro ((h | h) | rfl | h)
      · exact .inl (.inl h)
      · exact .inr h
      · exact .inl (.inl hown)
      · exact .inl (.inr h)
  | case3 k t entries hne ih =>
    simp only [List.flatMap_cons, List.mem_append, ih, or_assoc]

theorem tableSetting_columns {kv : KeyValue} {line : ℕ} {change : TableEntry → TableEntry}
    (h : tableSetting kv line = .ok change) (t : TableEntry) : (change t).columns = t.columns := by
  rw [tableSetting] at h
  split_ifs at h with hclass hskip
  · obtain ⟨name, -, hpure⟩ := bind_eq_ok.mp h
    obtain rfl := Except.ok.inj hpure
    rfl
  · obtain ⟨skip, -, hpure⟩ := bind_eq_ok.mp h
    obtain rfl := Except.ok.inj hpure
    rfl

structure Leaves (cfg cfg' : Config) (parts : List Text) (kv : KeyValue) : Prop where
  known : KnownSetting parts kv
  named : Named parts
  targets : ∀ p, p ∈ cfg'.targets ↔ p ∈ cfg.targets ∨ p ∈ sectionTargets parts

theorem applySetting_ok {cfg cfg' : Config} {parts : List Text} {kv : KeyValue} {line : ℕ}
    (h : applySetting cfg parts kv line = .ok cfg') : Leaves cfg cfg' parts kv := by
  unfold applySetting at h
  split at h
  · cases h
  · split_ifs at h with hkind
    obtain ⟨t, hvalue, hpure⟩ := bind_eq_ok.mp h
    obtain rfl := Except.ok.inj hpure
    subst hkind
    exact ⟨.types (parseStringValue_ok_iff.mp ⟨t, hvalue⟩), trivial, fun p =>
      (or_iff_left List.not_mem_nil).symm⟩
  · rename_i kind table more
    split_ifs at h with hkind hempty
    rw [not_not] at hkind
    subst hkind
    split at h
    · obtain ⟨change, hchange, hpure⟩ := bind_eq_ok.mp h
      obtain rfl := Except.ok.inj hpure
      refine ⟨.table table (tableSetting_ok_iff.mp ⟨change, hchange⟩), hempty, fun p => ?_⟩
      have hsame : ∀ t c, c ∈ (change t).columns.map Prod.fst ↔
          c ∈ t.columns.map Prod.fst ∨ c ∈ ([] : List Text) := by
        intro t c
        rw [tableSetting_columns hchange, or_iff_left List.not_mem_nil]
      rw [mem_targets_changeTable hsame, sectionTargets, List.mem_singleton]
      simp
    · rename_i columns column
      split_ifs at h with hcolumns hcolumn
      rw [not_not] at hcolumns
      subst hcolumns
      obtain ⟨change, hchange, hpure⟩ := bind_eq_ok.mp h
      obtain rfl := Except.ok.inj hpure
      refine ⟨.column table column (columnSetting_ok_iff.mp ⟨change, hchange⟩), ⟨hempty, hcolumn⟩,
        fun p => ?_⟩
      have hmore : ∀ (t : TableEntry) c,
          c ∈ ({ t with columns := changeEntry (foldLower column) {} change t.columns } :
            TableEntry).columns.map Prod.fst ↔ c ∈ t.columns.map Prod.fst ∨ c ∈ [foldLower column] := by
        intro t c
        rw [mem_changeEntry, List.mem_singleton]
      rw [mem_targets_changeTable hmore, sectionTargets, List.mem_cons, List.mem_singleton]
      simp
    · cases h

theorem applySetting_known {parts : List Text} {kv : KeyValue} (h : KnownSetting parts kv)
    (hnamed : Named parts) (cfg : Config) (line : ℕ) :
    ∃ cfg', applySetting cfg parts kv line = .ok cfg' := by
  cases h with
  | types hvalue =>
    rw [applySetting, if_pos rfl]
    exact exists_bind_pure.mpr (parseStringValue_ok_iff.mpr hvalue)
  | table name hkey =>
    have hne : name ≠ [] := hnamed
    rw [applySetting, if_neg (not_not.mpr rfl), if_neg hne]
    exact exists_bind_pure.mpr (tableSetting_ok_iff.mpr hkey)
  | column name column hkey =>
    rw [applySetting, if_neg (not_not.mpr rfl), if_neg hnamed.1]
    change ∃ cfg', (if "columns".toList ≠ "columns".toList then _ else _) = Except.ok cfg'
    rw [if_neg (not_not.mpr rfl), if_neg hnamed.2]
    exact exists_bind_pure.mpr (columnSetting_ok_iff.mpr hkey)

/-- Every key is known in its section, and no name of that section is empty. -/
def Applies (s : List Text × KeyValue) : Prop := KnownSetting s.1 s.2 ∧ Named s.1

/-- What is read is what the lines say, and the names left are those of the sections with keys. -/
theorem foldlM_parseLine {lines : List (Text × ℕ)} {s s' : Config × List Text}
    (h : lines.foldlM parseLine s = .ok s') : ∃ items, LinesRead lines items ∧
      (∀ x ∈ settings s.2 items, Applies x) ∧
        ∀ p, p ∈ s'.1.targets ↔ p ∈ s.1.targets ∨ ∃ x ∈ settings s.2 items, p ∈ sectionTargets x.1 := by
  induction lines generalizing s with
  | nil =>
    obtain rfl := Except.ok.inj h
    exact ⟨[], .nil, fun _ hx => absurd hx List.not_mem_nil, fun p => by simp [settings]⟩
  | cons l lines ih =>
    rw [List.foldlM_cons] at h
    obtain ⟨s₁, hline, hmore⟩ := bind_eq_ok.mp h
    obtain ⟨items, hread, happlies, htargets⟩ := ih hmore
    unfold parseLine at hline
    split at hline
    · rename_i hblank
      obtain rfl := Except.ok.inj hline
      exact ⟨items, .blank hblank hread, happlies, htargets⟩
    · rename_i cs hheader
      obtain ⟨parts, hparts, hpure⟩ := bind_eq_ok.mp hline
      obtain rfl := Except.ok.inj hpure
      rw [← hheader] at hparts
      exact ⟨.header parts :: items, .header hheader hparts hread, happlies, htargets⟩
    · rename_i hne hhead
      split_ifs at hline with hsection
      obtain ⟨kv, hkv, hrest⟩ := bind_eq_ok.mp hline
      obtain ⟨cfg, happly, hpure⟩ := bind_eq_ok.mp hrest
      obtain rfl := Except.ok.inj hpure
      have hleaves := applySetting_ok happly
      have hhead' : l.1.head? ≠ some '[' := by
        intro hsome
        obtain ⟨cs, hcs⟩ := List.head?_eq_some_iff.mp hsome
        exact hhead cs hcs
      refine ⟨.setting kv :: items, .setting hne hhead' hkv hread, ?_, fun p => ?_⟩
      · exact List.forall_mem_cons.mpr ⟨⟨hleaves.known, hleaves.named⟩, happlies⟩
      · rw [htargets, hleaves.targets, settings, List.exists_mem_cons_iff, or_assoc]

theorem parseLine_setting {s : Config × List Text} {l : Text × ℕ} (hne : l.1 ≠ [])
    (hline : l.1.head? ≠ some '[') (hsection : s.2 ≠ []) : parseLine s l =
      parseKeyValue l.2 l.1 >>= fun kv => applySetting s.1 s.2 kv l.2 >>= fun cfg => pure (cfg, s.2) := by
  unfold parseLine
  split
  · rename_i hblank
    exact absurd hblank hne
  · rename_i cs hheader
    rw [hheader] at hline
    exact absurd rfl hline
  · rw [if_neg hsection]

theorem foldlM_parseLine_known {lines : List (Text × ℕ)} {items : List Item} (h : LinesRead lines items)
    {s : Config × List Text} (happlies : ∀ x ∈ settings s.2 items, Applies x) :
    ∃ s', lines.foldlM parseLine s = .ok s' := by
  induction h generalizing s with
  | nil => exact ⟨s, rfl⟩
  | @blank l lines items hline hmore ih =>
    obtain ⟨s', hs'⟩ := ih happlies
    refine ⟨s', ?_⟩
    rw [List.foldlM_cons, parseLine, hline]
    exact hs'
  | @header l cs parts lines items hline hread hmore ih =>
    obtain ⟨s', hs'⟩ := ih (s := (s.1, parts)) happlies
    refine ⟨s', ?_⟩
    rw [hline] at hread
    rw [List.foldlM_cons, parseLine, hline]
    change (parseSection l.2 ('[' :: cs) >>= _) >>= _ = _
    rw [hread]
    exact hs'
  | @setting l kv lines items hne hline hread hmore ih =>
    obtain ⟨hown, hothers⟩ := List.forall_mem_cons.mp happlies
    obtain ⟨cfg, hcfg⟩ := applySetting_known hown.1 hown.2 s.1 l.2
    obtain ⟨s', hs'⟩ := ih (s := (cfg, s.2)) hothers
    refine ⟨s', ?_⟩
    have hsection : s.2 ≠ [] := by
      intro hnil
      rw [hnil] at hown
      cases hown.1
    rw [List.foldlM_cons, parseLine_setting hne hline hsection, hread]
    change (applySetting s.1 s.2 kv l.2 >>= _) >>= _ = _
    rw [hcfg]
    exact hs'

/-- The names a text leaves to be looked up. -/
theorem parseConfig_ok {toml : Text} {cfg : Config} (h : parseConfig toml = .ok cfg) :
    ∃ items, Says toml items ∧ (∀ x ∈ settings [] items, Applies x) ∧
      ∀ p, p ∈ cfg.targets ↔ ∃ x ∈ settings [] items, p ∈ sectionTargets x.1 := by
  rw [parseConfig] at h
  cases hfold : (numberedLines toml).foldlM parseLine ({}, []) with
  | error e =>
    rw [hfold] at h
    cases h
  | ok s =>
    rw [hfold] at h
    obtain rfl := Except.ok.inj h
    obtain ⟨items, hread, happlies, htargets⟩ := foldlM_parseLine hfold
    refine ⟨items, hread, happlies, fun p => (htargets p).trans (or_iff_right ?_)⟩
    exact List.not_mem_nil

theorem parseConfig_known {toml : Text} {items : List Item} (h : Says toml items)
    (happlies : ∀ x ∈ settings [] items, Applies x) : ∃ cfg, parseConfig toml = .ok cfg := by
  obtain ⟨s, hs⟩ := foldlM_parseLine_known h (s := ({}, [])) happlies
  refine ⟨s.1, ?_⟩
  rw [parseConfig, hs]
  rfl

/-- A text says one thing. -/
theorem LinesRead.unique {lines : List (Text × ℕ)} {items items' : List Item}
    (h : LinesRead lines items) (h' : LinesRead lines items') : items = items' := by
  induction h generalizing items' with
  | nil =>
    cases h'
    rfl
  | blank hline hmore ih =>
    cases h' with
    | blank _ hmore' => exact ih hmore'
    | header hline' => rw [hline] at hline'; cases hline'
    | setting hne => exact absurd hline hne
  | header hline hread hmore ih =>
    cases h' with
    | blank hline' => rw [hline] at hline'; cases hline'
    | header hline' hread' hmore' =>
      rw [hread] at hread'
      rw [Except.ok.inj hread', ih hmore']
    | setting _ hline' => rw [hline] at hline'; exact absurd rfl hline'
  | setting hne hline hread hmore ih =>
    cases h' with
    | blank hline' => exact absurd hline' hne
    | header hline' => rw [hline'] at hline; exact absurd rfl hline
    | setting _ _ hread' hmore' =>
      rw [hread] at hread'
      rw [Except.ok.inj hread', ih hmore']

section Catalog
variable (model : SchemaModel) (listed : List Text)

def Found : Text × Option Text → Prop
  | (key, none) => key ∈ listed.map foldLower
  | (key, some column) => ∀ table, (model.tables.find? fun m => foldLower m.name = key) = some table →
      column ∈ table.columns.map fun c => foldLower c.shape.name

theorem tableOffenders_eq_nil_iff (e : Text × TableEntry) :
    tableOffenders model (listed.map foldLower) e = [] ↔ ∀ p ∈ entryTargets e, Found model listed p := by
  rw [entryTargets, List.forall_mem_cons, tableOffenders]
  by_cases hlisted : e.1 ∈ listed.map foldLower
  · rw [if_neg (not_not.mpr hlisted), and_iff_right (show Found model listed (e.1, none) from hlisted)]
    simp only [List.forall_mem_map]
    cases hfind : model.tables.find? fun m => foldLower m.name = e.1 with
    | none =>
      refine iff_of_true rfl fun c _ table htable => ?_
      rw [hfind] at htable
      cases htable
    | some table =>
      simp only [Found, hfind, Option.some.injEq, forall_eq', List.map_eq_nil_iff, List.filter_eq_nil_iff,
        List.forall_mem_map, decide_eq_true_eq, not_not]
  · rw [if_pos hlisted]
    exact iff_of_false (List.cons_ne_nil _ _) fun h => hlisted h.1

theorem checkConfig_ok_iff (cfg : Config) :
    checkConfig cfg model listed = .ok () ↔ ∀ p ∈ cfg.targets, Found model listed p := by
  have hnil : cfg.tables.flatMap (tableOffenders model (listed.map foldLower)) = [] ↔
      ∀ p ∈ cfg.targets, Found model listed p := by
    simp only [List.flatMap_eq_nil_iff, tableOffenders_eq_nil_iff, Config.targets, List.mem_flatMap]
    exact ⟨fun h p ⟨e, he, hp⟩ => h e he p hp, fun h e he p hp => h p ⟨e, he, hp⟩⟩
  rw [← hnil, checkConfig]
  split_ifs with h
  · exact iff_of_true rfl h
  · exact iff_of_false (by rintro ⟨⟩) h

/-- Neither reading the config nor checking it against the catalog throws. -/
def Runs (toml : Text) : Prop :=
  ∃ cfg, parseConfig toml = .ok cfg ∧ checkConfig cfg model listed = .ok ()

def Checked (parts : List Text) : Prop :=
  Named parts ∧ ∀ p ∈ sectionTargets parts, Found model listed p

theorem runs_iff (toml : Text) : Runs model listed toml ↔ ∃ items, Says toml items ∧
    ∀ x ∈ settings [] items, KnownSetting x.1 x.2 ∧ Checked model listed x.1 := by
  constructor
  · rintro ⟨cfg, hread, hcheck⟩
    obtain ⟨items, hsays, happlies, htargets⟩ := parseConfig_ok hread
    have hfound := (checkConfig_ok_iff model listed cfg).mp hcheck
    refine ⟨items, hsays, fun x hx => ⟨(happlies x hx).1, (happlies x hx).2, fun p hp => ?_⟩⟩
    exact hfound p ((htargets p).mpr ⟨x, hx, hp⟩)
  · rintro ⟨items, hsays, hall⟩
    obtain ⟨cfg, hread⟩ := parseConfig_known hsays fun x hx => ⟨(hall x hx).1, (hall x hx).2.1⟩
    obtain ⟨items', hsays', -, htargets⟩ := parseConfig_ok hread
    obtain rfl := hsays.unique hsays'
    refine ⟨cfg, hread, (checkConfig_ok_iff model listed cfg).mpr fun p hp => ?_⟩
    obtain ⟨x, hx, hp'⟩ := (htargets p).mp hp
    exact (hall x hx).2.2 p hp'

/-- A section that is none of the types is one of a listed table, or one of a column of it where the
table is in the model. -/
inductive NamesCatalog : List Text → Prop
  | types : NamesCatalog ["types".toList]
  | table {name : Text} (hlisted : foldLower name ∈ listed.map foldLower) :
      NamesCatalog ["tables".toList, name]
  | column {name column : Text} (hlisted : foldLower name ∈ listed.map foldLower)
      (hcolumn : (∃ m ∈ model.tables, foldLower m.name = foldLower name) →
        ∃ m ∈ model.tables, foldLower m.name = foldLower name ∧
          ∃ c ∈ m.columns, foldLower c.shape.name = foldLower column) :
      NamesCatalog ["tables".toList, name, "columns".toList, column]

def HasHeader (toml : Text) (parts : List Text) : Prop :=
  ∃ l ∈ numberedLines toml, l.1.head? = some '[' ∧ parseSection l.2 l.1 = .ok parts

/-- A header of another form makes the run throw, and where there is none, every key is known in its
section and every value well formed, it does not. -/
structure NoSectionIgnored (toml : Text) : Prop where
  wrong : (∃ parts, HasHeader toml parts ∧ ¬ NamesCatalog model listed parts) →
    ¬ Runs model listed toml
  right : (∀ parts, HasHeader toml parts → NamesCatalog model listed parts) →
    ∀ items, Says toml items → (∀ x ∈ settings [] items, KnownSetting x.1 x.2) → Runs model listed toml

/-- A text that is well formed has a wrong header where a key stands under one that the check refuses,
and only there. -/
def KeysTell (toml : Text) : Prop :=
  ∀ items, Says toml items → (∀ x ∈ settings [] items, KnownSetting x.1 x.2) →
    ((∃ parts, HasHeader toml parts ∧ ¬ NamesCatalog model listed parts) ↔
      ∃ x ∈ settings [] items, ¬ Checked model listed x.1)

theorem noSectionIgnored_iff (toml : Text) :
    NoSectionIgnored model listed toml ↔ KeysTell model listed toml := by
  constructor
  · intro h items hsays hknown
    constructor
    · intro hwrong
      by_contra hnone
      push Not at hnone
      exact h.wrong hwrong
        ((runs_iff model listed toml).mpr ⟨items, hsays, fun x hx => ⟨hknown x hx, hnone x hx⟩⟩)
    · rintro ⟨x, hx, hunchecked⟩
      by_contra hnone
      push Not at hnone
      obtain ⟨items', hsays', hall⟩ := (runs_iff model listed toml).mp (h.right hnone items hsays hknown)
      obtain rfl := hsays.unique hsays'
      exact hunchecked (hall x hx).2
  · intro h
    constructor
    · intro hwrong hruns
      obtain ⟨items, hsays, hall⟩ := (runs_iff model listed toml).mp hruns
      obtain ⟨x, hx, hunchecked⟩ := (h items hsays fun x hx => (hall x hx).1).mp hwrong
      exact hunchecked (hall x hx).2
    · intro hright items hsays hknown
      refine (runs_iff model listed toml).mpr ⟨items, hsays, fun x hx => ⟨hknown x hx, ?_⟩⟩
      by_contra hunchecked
      obtain ⟨parts, hheader, hwrong⟩ := (h items hsays hknown).mpr ⟨x, hx, hunchecked⟩
      exact hwrong (hright parts hheader)

end Catalog

/-- A section of a table that is not there, without a key. -/
theorem nope_ignored :
    ¬ NoSectionIgnored (SchemaModel.named "db".toList []) [] "[tables.nope]\n".toList := by
  intro h
  have hheader : HasHeader "[tables.nope]\n".toList ["tables".toList, "nope".toList] :=
    ⟨("[tables.nope]".toList, 1), by decide, rfl, rfl⟩
  have hwrong : ¬ NamesCatalog (SchemaModel.named "db".toList []) [] ["tables".toList, "nope".toList] := by
    intro hnames
    cases hnames with
    | table hlisted => exact absurd hlisted List.not_mem_nil
  exact h.wrong ⟨_, hheader, hwrong⟩ ⟨{}, rfl, rfl⟩

end Uniorm.Gen
