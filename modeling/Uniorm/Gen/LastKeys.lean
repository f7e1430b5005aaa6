import Uniorm.Foundation.Lists
import Uniorm.Gen.Sections

/-! # The last keys of a config

A config is a set of maps, filled line by line. What the generator finds in them
can be told from the text alone: of the keys that say the same thing about the same
name, whatever the case of that name, the last one counts, wherever its section
stands; and an entry is found where a key has been read under its section.
-/
namespace Uniorm.Gen

open Foundation Sql Builder Cpp

def lastValue (key : Text) (kvs : List KeyValue) : Option Text :=
  ((kvs.filter fun kv => decide (kv.key = key)).map KeyValue.value).getLast?

/-- What stands between the quotes. -/
def unquote (value : Text) : Text := (value.drop 1).dropLast

/-- What the key says of a type, where it stands under `[types]`. -/
def typeKey (type : Text) (x : List Text × KeyValue) : Option KeyValue :=
  match x.1 with
  | [_] => if foldUpper x.2.key = type then some x.2 else none
  | _ => none

def tableKey (table : Text) (x : List Text × KeyValue) : Option KeyValue :=
  match x.1 with
  | [_, name] => if foldLower name = table then some x.2 else none
  | _ => none

def columnKey (table column : Text) (x : List Text × KeyValue) : Option KeyValue :=
  match x.1 with
  | [_, name, _, c] => if foldLower name = table ∧ foldLower c = column then some x.2 else none
  | _ => none

def ofTable (table : Text) (x : List Text × KeyValue) : Bool :=
  match x.1 with
  | _ :: name :: _ => decide (foldLower name = table)
  | _ => false

def columnFields (kvs : List KeyValue) : ColumnOverride where
  cppType := (lastValue "cpp_type".toList kvs).map unquote
  converter := (lastValue "converter".toList kvs).map unquote

def columnMeaning (kvs : List KeyValue) : Option ColumnOverride :=
  if kvs.isEmpty then none else some (columnFields kvs)

def tableFields (table : Text) (keys : List (List Text × KeyValue)) : TableConfig where
  className := (lastValue "class".toList (keys.filterMap (tableKey table))).map unquote
  skip := decide (lastValue "skip".toList (keys.filterMap (tableKey table)) = some "true".toList)
  columns column := columnMeaning (keys.filterMap (columnKey table column))

def tableMeaning (table : Text) (keys : List (List Text × KeyValue)) : Option TableConfig :=
  if keys.any (ofTable table) then some (tableFields table keys) else none

def typeMeaning (type : Text) (keys : List (List Text × KeyValue)) : Option Text :=
  ((keys.filterMap (typeKey type)).map fun kv => unquote kv.value).getLast?

/-- What the generator is to find. -/
def meaning (keys : List (List Text × KeyValue)) : GenConfig where
  typeOverrides type := typeMeaning type keys
  tables table := tableMeaning table keys

section Entries
variable {α : Type} {key k : Text} {default : α} {change : α → α} {entries : List (Text × α)}

theorem findEntry_cons (k' : Text) (a : α) (entries : List (Text × α)) :
    findEntry ((k', a) :: entries) k = if k' = k then some a else findEntry entries k := by
  rw [findEntry, List.find?_cons]
  by_cases h : k' = k
  · rw [if_pos h, decide_eq_true h]
    rfl
  · rw [if_neg h, decide_eq_false h]
    rfl

theorem findEntry_changeEntry : findEntry (changeEntry key default change entries) k =
    if key = k then some (change ((findEntry entries k).getD default)) else findEntry entries k := by
  fun_induction changeEntry key default change entries with
  | case1 =>
    rw [findEntry_cons]
    rfl
  | case2 a entries =>
    rw [findEntry_cons, findEntry_cons]
    by_cases h : key = k
    · rw [if_pos h, if_pos h, if_pos h]
      rfl
    · rw [if_neg h, if_neg h, if_neg h]
  | case3 k' a entries hne ih =>
    rw [findEntry_cons, findEntry_cons, ih]
    by_cases h : k' = k
    · subst h
      rw [if_pos rfl, if_pos rfl, if_neg fun h => hne h.symm]
    · rw [if_neg h, if_neg h]

end Entries

section More
variable {key table : Text} {kvs : List KeyValue} {kv : KeyValue} {keys : List (List Text × KeyValue)}
  {x : List Text × KeyValue}

theorem lastValue_append : lastValue key (kvs ++ [kv]) =
    if kv.key = key then some kv.value else lastValue key kvs := by
  rw [lastValue, List.filter_append, List.map_append, List.getLast?_append]
  by_cases h : kv.key = key
  · rw [if_pos h, List.filter_singleton, decide_eq_true h]
    rfl
  · rw [if_neg h, List.filter_singleton, decide_eq_false h]
    rfl

theorem tableKey_of_not (h : ofTable table x = false) : tableKey table x = none := by
  obtain ⟨_ | ⟨kind, _ | ⟨name, _ | ⟨_, _⟩⟩⟩, kv⟩ := x
  · rfl
  · rfl
  · exact if_neg (of_decide_eq_false h)
  · rfl

theorem columnKey_of_not (h : ofTable table x = false) (column : Text) :
    columnKey table column x = none := by
  obtain ⟨_ | ⟨kind, _ | ⟨name, _ | ⟨_, _ | ⟨c, _ | ⟨_, _⟩⟩⟩⟩⟩, kv⟩ := x
  · rfl
  · rfl
  · rfl
  · rfl
  · exact if_neg fun hboth => of_decide_eq_false h hboth.1
  · rfl

/-- A key that is none of the table's leaves it as it is. -/
theorem tableMeaning_of_not (h : ofTable table x = false) :
    tableMeaning table (keys ++ [x]) = tableMeaning table keys := by
  simp only [tableMeaning, tableFields, filterMap_append_none (tableKey_of_not h),
    filterMap_append_none (columnKey_of_not h _), List.any_append, List.any_cons, List.any_nil, h,
    Bool.or_false]

/-- Before the first key of a table there is nothing in it. -/
theorem tableMeaning_getD : (tableMeaning table keys).getD {} = tableFields table keys := by
  rw [tableMeaning]
  split_ifs with h
  · rfl
  · have hnone : ∀ y ∈ keys, ofTable table y = false := by
      intro y hy
      cases hy' : ofTable table y with
      | false => rfl
      | true => exact absurd (List.any_eq_true.mpr ⟨y, hy, hy'⟩) h
    have htable : keys.filterMap (tableKey table) = [] :=
      List.filterMap_eq_nil_iff.mpr fun y hy => tableKey_of_not (hnone y hy)
    have hcolumn : ∀ column, keys.filterMap (columnKey table column) = [] := fun column =>
      List.filterMap_eq_nil_iff.mpr fun y hy => columnKey_of_not (hnone y hy) column
    simp only [tableFields, htable, hcolumn]
    rfl

theorem columnMeaning_getD : (columnMeaning kvs).getD {} = columnFields kvs := by
  cases kvs with
  | nil => rfl
  | cons kv kvs => rfl

end More

def TableEntry.found (t : TableEntry) : TableConfig where
  className := t.className
  skip := t.skip
  columns := findEntry t.columns

/-- The maps answer what the keys read so far come to. -/
structure Means (cfg : Config) (keys : List (List Text × KeyValue)) : Prop where
  types : ∀ type, findEntry cfg.typeOverrides type = typeMeaning type keys
  tables : ∀ table, (findEntry cfg.tables table).map TableEntry.found = tableMeaning table keys

section Read
variable {cfg cfg' : Config} {keys : List (List Text × KeyValue)} {kind name : Text} {more : List Text}
  {kv : KeyValue} {line : ℕ}

theorem Means.genConfig (h : Means cfg keys) : cfg.genConfig = meaning keys := by
  rw [meaning, ← funext h.types, ← funext h.tables]
  rfl

theorem Means.getD (h : Means cfg keys) (table : Text) :
    ((findEntry cfg.tables table).getD {}).found = tableFields table keys := by
  rw [← tableMeaning_getD, ← h.tables]
  cases findEntry cfg.tables table with
  | none => rfl
  | some t => rfl

theorem Means.changeTable {change : TableEntry → TableEntry} (h : Means cfg keys)
    (hchange : ∀ t : TableEntry, t.found = tableFields (foldLower name) keys →
      (change t).found = tableFields (foldLower name) (keys ++ [(kind :: name :: more, kv)])) :
    Means (changeTable cfg name change) (keys ++ [(kind :: name :: more, kv)]) := by
  refine ⟨fun type => ?_, fun table => ?_⟩
  · have hnone : typeKey type (kind :: name :: more, kv) = none := rfl
    rw [typeMeaning, filterMap_append_none hnone]
    exact h.types type
  · rw [Gen.changeTable, findEntry_changeEntry]
    by_cases hname : foldLower name = table
    · subst hname
      have hany : (keys ++ [(kind :: name :: more, kv)]).any (ofTable (foldLower name)) = true :=
        List.any_eq_true.mpr ⟨_, List.mem_append_right _ List.mem_cons_self, decide_eq_true rfl⟩
      rw [if_pos rfl, Option.map_some, hchange _ (h.getD _), tableMeaning, if_pos hany]
    · have hnot : ofTable table (kind :: name :: more, kv) = false := decide_eq_false hname
      rw [if_neg hname, h.tables, tableMeaning_of_not hnot]

theorem Means.changeType (h : Means cfg keys) :
    Means
      { cfg with
        typeOverrides := changeEntry (foldUpper kv.key) [] (fun _ => unquote kv.value) cfg.typeOverrides }
      (keys ++ [([kind], kv)]) := by
  refine ⟨fun type => ?_, fun table => ?_⟩
  · rw [findEntry_changeEntry, typeMeaning]
    by_cases hkey : foldUpper kv.key = type
    · have hsome : typeKey type ([kind], kv) = some kv := if_pos hkey
      rw [if_pos hkey, filterMap_append_some hsome, List.map_append, List.getLast?_append]
      rfl
    · have hnone : typeKey type ([kind], kv) = none := if_neg hkey
      rw [if_neg hkey, filterMap_append_none hnone, h.types, typeMeaning]
  · have hnot : ofTable table ([kind], kv) = false := rfl
    rw [tableMeaning_of_not hnot]
    exact h.tables table

theorem parseStringValue_eq {value t context : Text} (h : parseStringValue value line context = .ok t) :
    t = unquote value := by
  rw [parseStringValue] at h
  split_ifs at h
  exact (Except.ok.inj h).symm

theorem parseBoolValue_eq {value context : Text} {b : Bool}
    (h : parseBoolValue value line context = .ok b) : b = decide (value = "true".toList) := by
  rw [parseBoolValue] at h
  split_ifs at h with htrue hfalse
  · rw [decide_eq_true htrue, Except.ok.inj h]
  · rw [decide_eq_false htrue, Except.ok.inj h]

/-- A key of a table is the last of its own keys, and those of its columns stay. -/
theorem tableFields_append : tableFields (foldLower name) (keys ++ [([kind, name], kv)]) =
    { tableFields (foldLower name) keys with
      className :=
        (lastValue "class".toList (keys.filterMap (tableKey (foldLower name)) ++ [kv])).map unquote
      skip := decide (lastValue "skip".toList (keys.filterMap (tableKey (foldLower name)) ++ [kv]) =
        some "true".toList) } := by
  have hsome : tableKey (foldLower name) ([kind, name], kv) = some kv := if_pos rfl
  have hnone : ∀ column, columnKey (foldLower name) column ([kind, name], kv) = none := fun _ => rfl
  rw [tableFields, filterMap_append_some hsome, tableFields]
  simp only [filterMap_append_none (hnone _)]

theorem tableSetting_found {change : TableEntry → TableEntry} (h : tableSetting kv line = .ok change)
    (t : TableEntry) (ht : t.found = tableFields (foldLower name) keys) :
    (change t).found = tableFields (foldLower name) (keys ++ [([kind, name], kv)]) := by
  have hne : "class".toList ≠ "skip".toList := by decide
  rw [tableFields_append, lastValue_append, lastValue_append, ← ht]
  have hclassName : t.className =
      (lastValue "class".toList (keys.filterMap (tableKey (foldLower name)))).map unquote :=
    congrArg TableConfig.className ht
  have hskipped : t.skip = decide (lastValue "skip".toList (keys.filterMap (tableKey (foldLower name))) =
      some "true".toList) := congrArg TableConfig.skip ht
  rw [tableSetting] at h
  split_ifs at h with hclass hskip
  · obtain ⟨value, hvalue, hpure⟩ := bind_eq_ok.mp h
    obtain rfl := Except.ok.inj hpure
    have hnot : kv.key ≠ "skip".toList := fun heq => hne (hclass.symm.trans heq)
    rw [if_pos hclass, if_neg hnot, Option.map_some, ← parseStringValue_eq hvalue, ← hskipped]
    rfl
  · obtain ⟨skip, hvalue, hpure⟩ := bind_eq_ok.mp h
    obtain rfl := Except.ok.inj hpure
    rw [if_neg hclass, if_pos hskip, ← hclassName]
    simp only [Option.some.injEq, ← parseBoolValue_eq hvalue]
    rfl

/-- A key of a column is the last of the keys of this column, and the table's others stay. -/
theorem tableFields_append_column {columns column : Text} :
    tableFields (foldLower name) (keys ++ [([kind, name, columns, column], kv)]) =
      { tableFields (foldLower name) keys with
        columns := fun c => if foldLower column = c then
            some (columnFields (keys.filterMap (columnKey (foldLower name) c) ++ [kv]))
          else columnMeaning (keys.filterMap (columnKey (foldLower name) c)) } := by
  have hnone : tableKey (foldLower name) ([kind, name, columns, column], kv) = none := rfl
  rw [tableFields, filterMap_append_none hnone, tableFields]
  congr 1
  funext c
  by_cases h : foldLower column = c
  · have hsome : columnKey (foldLower name) c ([kind, name, columns, column], kv) = some kv :=
      if_pos ⟨rfl, h⟩
    have hsome' : ¬ (keys.filterMap (columnKey (foldLower name) c) ++ [kv]).isEmpty = true := by
      rw [List.isEmpty_iff]
      exact List.append_ne_nil_of_right_ne_nil _ (List.cons_ne_nil _ _)
    rw [if_pos h, filterMap_append_some hsome, columnMeaning, if_neg hsome']
  · have hnone' : columnKey (foldLower name) c ([kind, name, columns, column], kv) = none :=
      if_neg fun hboth => h hboth.2
    rw [if_neg h, filterMap_append_none hnone']

theorem columnSetting_fields {kvs : List KeyValue} {change : ColumnOverride → ColumnOverride}
    (h : columnSetting kv line = .ok change) : change (columnFields kvs) = columnFields (kvs ++ [kv]) := by
  have hne : "cpp_type".toList ≠ "converter".toList := by decide
  rw [columnFields, columnFields, lastValue_append, lastValue_append]
  rw [columnSetting] at h
  split_ifs at h with htype hconverter
  · obtain ⟨value, hvalue, hpure⟩ := bind_eq_ok.mp h
    obtain rfl := Except.ok.inj hpure
    have hnot : kv.key ≠ "converter".toList := fun heq => hne (htype.symm.trans heq)
    rw [if_pos htype, if_neg hnot, Option.map_some, ← parseStringValue_eq hvalue]
  · obtain ⟨value, hvalue, hpure⟩ := bind_eq_ok.mp h
    obtain rfl := Except.ok.inj hpure
    rw [if_neg htype, if_pos hconverter, Option.map_some, ← parseStringValue_eq hvalue]

theorem columnSetting_found {columns column : Text} {change : ColumnOverride → ColumnOverride}
    (h : columnSetting kv line = .ok change) (t : TableEntry)
    (ht : t.found = tableFields (foldLower name) keys) :
    ({ t with columns := changeEntry (foldLower column) {} change t.columns } : TableEntry).found =
      tableFields (foldLower name) (keys ++ [([kind, name, columns, column], kv)]) := by
  have hcolumns : ∀ c, findEntry t.columns c =
      columnMeaning (keys.filterMap (columnKey (foldLower name) c)) :=
    fun c => congrFun (congrArg TableConfig.columns ht) c
  have hfound : ∀ c, findEntry (changeEntry (foldLower column) {} change t.columns) c =
      if foldLower column = c then
        some (columnFields (keys.filterMap (columnKey (foldLower name) c) ++ [kv]))
      else columnMeaning (keys.filterMap (columnKey (foldLower name) c)) := by
    intro c
    rw [findEntry_changeEntry]
    by_cases hc : foldLower column = c
    · subst hc
      rw [if_pos rfl, if_pos rfl, hcolumns, columnMeaning_getD, columnSetting_fields h]
    · rw [if_neg hc, if_neg hc, hcolumns]
  rw [tableFields_append_column, ← ht, ← funext hfound]
  rfl

/-- One key that is read. -/
theorem applySetting_means {parts : List Text} (h : applySetting cfg parts kv line = .ok cfg')
    (hcfg : Means cfg keys) : Means cfg' (keys ++ [(parts, kv)]) := by
  unfold applySetting at h
  split at h
  · cases h
  · split_ifs at h
    obtain ⟨t, hvalue, hpure⟩ := bind_eq_ok.mp h
    obtain rfl := Except.ok.inj hpure
    rw [parseStringValue_eq hvalue]
    exact hcfg.changeType
  · rename_i kind table more
    split_ifs at h with hkind hempty
    split at h
    · obtain ⟨change, hchange, hpure⟩ := bind_eq_ok.mp h
      obtain rfl := Except.ok.inj hpure
      exact hcfg.changeTable fun t ht => tableSetting_found hchange t ht
    · rename_i columns column
      split_ifs at h with hcolumns hcolumn
      obtain ⟨change, hchange, hpure⟩ := bind_eq_ok.mp h
      obtain rfl := Except.ok.inj hpure
      exact hcfg.changeTable fun t ht => columnSetting_found hchange t ht
    · cases h

/-- The lines as they are read one after the other, from what the keys before them come to. -/
theorem foldlM_parseLine_means {lines : List (Text × ℕ)} {items : List Item} (hread : LinesRead lines items)
    {s s' : Config × List Text} (h : lines.foldlM parseLine s = .ok s') (hmeans : Means s.1 keys) :
    Means s'.1 (keys ++ settings s.2 items) := by
  induction hread generalizing s keys with
  | nil =>
    obtain rfl := Except.ok.inj h
    rw [settings, List.append_nil]
    exact hmeans
  | @blank l lines items hline hmore ih =>
    rw [List.foldlM_cons, parseLine, hline] at h
    exact ih h hmeans
  | @header l cs parts lines items hline hread hmore ih =>
    rw [hline] at hread
    rw [List.foldlM_cons, parseLine, hline] at h
    obtain ⟨s₁, hs₁, hrest⟩ := bind_eq_ok.mp h
    obtain ⟨parts', hparts, hpure⟩ := bind_eq_ok.mp hs₁
    obtain rfl := Except.ok.inj hpure
    obtain rfl := Except.ok.inj (hparts.symm.trans hread)
    exact ih hrest hmeans
  | @setting l kv lines items hne hline hread hmore ih =>
    rw [List.foldlM_cons] at h
    obtain ⟨s₁, hs₁, hrest⟩ := bind_eq_ok.mp h
    have hsection : s.2 ≠ [] := by
      intro hnil
      unfold parseLine at hs₁
      split at hs₁
      · rename_i hblank
        exact hne hblank
      · rename_i cs hheader
        rw [hheader] at hline
        exact hline rfl
      · rw [if_pos hnil] at hs₁
        cases hs₁
    rw [parseLine_setting hne hline hsection, hread] at hs₁
    obtain ⟨kv', hkv, hsome⟩ := bind_eq_ok.mp hs₁
    obtain rfl := Except.ok.inj hkv
    obtain ⟨cfg, hcfg, hpure⟩ := bind_eq_ok.mp hsome
    obtain rfl := Except.ok.inj hpure
    have hall := ih hrest (applySetting_means hcfg hmeans)
    rw [List.append_assoc] at hall
    exact hall

end Read

/-- A config is read where every line is blank, a section or a key, every key is known in its section
and no name of that section is empty; what is found in it is what its last keys say. -/
theorem config_is_its_last_keys (toml : Text) (found : GenConfig) :
    (∃ cfg, parseConfig toml = .ok cfg ∧ cfg.genConfig = found) ↔
      ∃ items, Says toml items ∧ (∀ x ∈ settings [] items, Applies x) ∧
        found = meaning (settings [] items) := by
  have hempty : Means {} [] := ⟨fun _ => rfl, fun _ => rfl⟩
  have hmeans : ∀ {cfg : Config} {items : List Item}, parseConfig toml = .ok cfg → Says toml items →
      cfg.genConfig = meaning (settings [] items) := by
    intro cfg items h hsays
    obtain ⟨s, hs, rfl⟩ := map_eq_ok.mp h
    exact (foldlM_parseLine_means hsays hs hempty).genConfig
  constructor
  · rintro ⟨cfg, h, rfl⟩
    obtain ⟨items, hsays, happlies, -⟩ := parseConfig_ok h
    exact ⟨items, hsays, happlies, hmeans h hsays⟩
  · rintro ⟨items, hsays, happlies, rfl⟩
    obtain ⟨cfg, h⟩ := parseConfig_known hsays happlies
    exact ⟨cfg, h, hmeans h hsays⟩

end Uniorm.Gen
