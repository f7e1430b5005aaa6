import Uniorm.Foundation.Letters
import Uniorm.Gen.Written

/-! # What is read can be written

Whatever a text says, the config that is read from it can be written out, as long
as no name in it has a quote: its keys are folded and stand once each, and a value
that was read from between quotes can stand between quotes again. So these are the
configs there are texts of, and each is read back from a text of its own.
-/
namespace Uniorm.Gen

open Foundation Sql Builder Cpp

structure CleanLine (line : Text) : Prop where
  newline : '\n' ∉ line
  kept : Kept false line

theorem not_mem_of_mem_splitOn {text l : Text} (h : l ∈ text.splitOn '\n') : '\n' ∉ l := by
  induction text generalizing l with
  | nil =>
    obtain rfl := List.mem_singleton.mp h
    exact List.not_mem_nil
  | cons c text ih =>
    rw [List.splitOn_cons_eq_if_modifyHead] at h
    split_ifs at h with hc
    · rcases List.mem_cons.mp h with rfl | h
      · exact List.not_mem_nil
      · exact ih h
    · cases hsplit : text.splitOn '\n' with
      | nil => exact absurd hsplit (List.splitOn_ne_nil _ _)
      | cons first others =>
        rw [hsplit] at h ih
        rcases List.mem_cons.mp h with rfl | h
        · rw [List.mem_cons, not_or]
          exact ⟨fun heq => hc (beq_iff_eq.mpr heq.symm), ih List.mem_cons_self⟩
        · exact ih (List.mem_cons_of_mem _ h)

theorem mem_of_mem_stripComment {q : Bool} {s : Text} {c : Char} (h : c ∈ stripComment q s) : c ∈ s := by
  fun_induction stripComment q s with
  | case1 => exact h
  | case2 q cs ih =>
    rcases List.mem_cons.mp h with rfl | h
    · exact List.mem_cons_self
    · exact List.mem_cons_of_mem _ (ih h)
  | case3 => exact absurd h List.not_mem_nil
  | case4 q c' cs hquote hhash ih =>
    rcases List.mem_cons.mp h with rfl | h
    · exact List.mem_cons_self
    · exact List.mem_cons_of_mem _ (ih h)

/-- A text without its outer spaces, which close no quotes. -/
theorem trim_split (s : Text) : ∃ a b, s = a ++ (trim s ++ b) ∧ '"' ∉ a := by
  refine ⟨s.takeWhile isSpace, (s.dropWhile isSpace).rtakeWhile isSpace, ?_, ?_⟩
  · rw [trim, trimBy, List.rdropWhile_append_rtakeWhile, List.takeWhile_append_dropWhile]
  · intro hquote
    exact absurd (List.mem_takeWhile_imp hquote) (by decide)

theorem CleanLine.trim {s : Text} (h : CleanLine s) : CleanLine (trim s) := by
  obtain ⟨a, b, hs, ha⟩ := trim_split s
  have hkept := h.kept
  rw [hs, kept_append, quotesAfter_of_not_mem ha, kept_append] at hkept
  refine ⟨fun hmem => h.newline ?_, hkept.2.1⟩
  rw [hs]
  exact List.mem_append_right _ (List.mem_append_left _ hmem)

theorem clean_numberedLines {toml : Text} : ∀ l ∈ numberedLines toml, CleanLine l.1 := by
  intro l hl
  have hmem : l.1 ∈ (toml.splitOn '\n').map fun raw => trim (stripComment false raw) := by
    rw [← List.zipIdx_map_fst 1 ((toml.splitOn '\n').map _)]
    exact List.mem_map_of_mem hl
  obtain ⟨raw, hraw, hline⟩ := List.mem_map.mp hmem
  rw [← hline]
  have hclean : CleanLine (stripComment false raw) :=
    ⟨fun h => not_mem_of_mem_splitOn hraw (mem_of_mem_stripComment h), kept_stripComment⟩
  exact hclean.trim

section Tokens
variable {n : ℕ} {stop : Char} {s token rest : Text}

def TokenRead (s token rest : Text) : Prop :=
  ∃ front, s = front ++ rest ∧ (∀ c ∈ token, c ∈ front) ∧ ('"' ∉ token → quotesAfter false front = false)

theorem readToken_parts (h : readToken n stop s = .ok (token, rest)) : TokenRead s token rest := by
  unfold readToken at h
  split at h
  · cases h
  · rename_i cs
    split at h
    · cases h
    · rename_i c more hdrop
      obtain ⟨htoken, hrest⟩ := Prod.mk.inj (Except.ok.inj h)
      subst hrest
      have hclose : c = '"' := by
        have hhead : (cs.dropWhile (· != '"')).head? = some c := by rw [hdrop]; rfl
        have hstop := List.head?_dropWhile_not (· != '"') cs
        rw [hhead] at hstop
        simpa using hstop
      refine ⟨'"' :: (token ++ ['"']), ?_, fun d hd => ?_, fun hquote => ?_⟩
      · have hsplit := List.takeWhile_append_dropWhile (p := (· != '"')) (l := cs)
        rw [hdrop, htoken, hclose] at hsplit
        rw [← hsplit]
        simp
      · exact List.mem_cons_of_mem _ (List.mem_append_left _ hd)
      · change quotesAfter true (token ++ ['"']) = false
        rw [quotesAfter_append, quotesAfter_of_not_mem hquote]
        rfl
  · dsimp only at h
    split_ifs at h
    obtain ⟨htoken, hrest⟩ := Prod.mk.inj (Except.ok.inj h)
    refine ⟨token, ?_, fun d hd => hd, fun hquote => quotesAfter_of_not_mem hquote⟩
    rw [← htoken, ← hrest, List.takeWhile_append_dropWhile]

theorem TokenRead.mem_token (h : TokenRead s token rest) {c : Char} (hc : c ∈ token) : c ∈ s := by
  obtain ⟨front, rfl, htoken, -⟩ := h
  exact List.mem_append_left _ (htoken c hc)

theorem TokenRead.mem_rest (h : TokenRead s token rest) {c : Char} (hc : c ∈ rest) : c ∈ s := by
  obtain ⟨front, rfl, -, -⟩ := h
  exact List.mem_append_right _ hc

theorem mem_of_mem_skipSpaces {c : Char} (h : c ∈ skipSpaces s) : c ∈ s :=
  (List.dropWhile_sublist _).subset h

theorem sectionParts_mem {rounds : ℕ} {body : Text} {parts : List Text}
    (h : sectionParts n rounds body = .ok parts) : ∀ part ∈ parts, ∀ c ∈ part, c ∈ body := by
  induction rounds generalizing body parts with
  | zero => cases h
  | succ rounds ih =>
    rw [sectionParts] at h
    obtain ⟨⟨token, rest⟩, hread, h⟩ := bind_eq_ok.mp h
    have htoken := readToken_parts hread
    dsimp only at h
    split at h
    · obtain rfl := Except.ok.inj h
      intro part hpart c hc
      obtain rfl := List.mem_singleton.mp hpart
      exact mem_of_mem_skipSpaces (htoken.mem_token hc)
    · rename_i more hmore
      obtain ⟨others, hothers, hpure⟩ := bind_eq_ok.mp h
      obtain rfl := Except.ok.inj hpure
      intro part hpart c hc
      rcases List.mem_cons.mp hpart with rfl | hpart
      · exact mem_of_mem_skipSpaces (htoken.mem_token hc)
      · have hrest : c ∈ skipSpaces rest := by
          rw [hmore]
          exact List.mem_cons_of_mem _ (ih hothers part hpart c hc)
        exact mem_of_mem_skipSpaces (htoken.mem_rest (mem_of_mem_skipSpaces hrest))
    · cases h

theorem parseSection_mem {line : Text} {parts : List Text} (h : parseSection n line = .ok parts) :
    ∀ part ∈ parts, ∀ c ∈ part, c ∈ line := by
  rw [parseSection] at h
  split_ifs at h
  intro part hpart c hc
  have hbody := sectionParts_mem h part hpart c hc
  exact List.mem_of_mem_drop (List.dropLast_subset _ hbody)

/-- A key and its value are on the line, and no comment begins in the value of a key without quotes. -/
theorem parseKeyValue_parts {line : Text} {kv : KeyValue} (h : parseKeyValue n line = .ok kv)
    (hline : CleanLine line) :
    '\n' ∉ kv.key ∧ '\n' ∉ kv.value ∧ ('"' ∉ kv.key → Kept false kv.value) := by
  rw [parseKeyValue] at h
  obtain ⟨⟨key, rest⟩, hread, hkv⟩ := bind_eq_ok.mp h
  obtain ⟨front, rfl, hkey, hclosed⟩ := readToken_parts hread
  dsimp only at hkv
  split at hkv
  · rename_i more hmore
    split_ifs at hkv
    obtain rfl := Except.ok.inj hkv
    -- the line is the key, blanks, the sign and the value with blanks around it
    obtain ⟨a, b, hvalue, ha⟩ := trim_split more
    have hrest : rest = (rest.takeWhile isSpace ++ '=' :: a) ++ (trim more ++ b) := by
      rw [List.append_assoc, List.cons_append, ← hvalue, ← hmore, skipSpaces,
        List.takeWhile_append_dropWhile]
    have hblank : '"' ∉ rest.takeWhile isSpace ++ '=' :: a := by
      rw [List.mem_append, List.mem_cons, not_or, not_or]
      refine ⟨fun hquote => ?_, by decide, ha⟩
      exact absurd (List.mem_takeWhile_imp hquote) (by decide)
    refine ⟨fun hmem => hline.newline (List.mem_append_left _ (hkey _ hmem)), fun hmem => ?_,
      fun hquote => ?_⟩
    · refine hline.newline (List.mem_append_right _ ?_)
      rw [hrest]
      exact List.mem_append_right _ (List.mem_append_left _ hmem)
    · have hkept := hline.kept
      rw [kept_append, hclosed hquote, hrest, kept_append, quotesAfter_of_not_mem hblank] at hkept
      exact (kept_append.mp hkept.2.2).1
  · cases hkv

end Tokens

section Entries
variable {α : Type} {key : Text} {default : α} {change : α → α} {entries : List (Text × α)}

theorem forall_changeEntry {P : Text × α → Prop} (h : ∀ e ∈ entries, P e)
    (hchange : ∀ a, a = default ∨ P (key, a) → P (key, change a)) :
    ∀ e ∈ changeEntry key default change entries, P e := by
  fun_induction changeEntry key default change entries with
  | case1 =>
    intro e he
    obtain rfl := List.mem_singleton.mp he
    exact hchange default (.inl rfl)
  | case2 a entries =>
    rw [List.forall_mem_cons] at h ⊢
    exact ⟨hchange a (.inr h.1), h.2⟩
  | case3 k a entries hne ih =>
    rw [List.forall_mem_cons] at h ⊢
    exact ⟨h.1, ih h.2⟩

theorem nodup_changeEntry (h : (entries.map Prod.fst).Nodup) :
    ((changeEntry key default change entries).map Prod.fst).Nodup := by
  fun_induction changeEntry key default change entries with
  | case1 => exact List.nodup_singleton _
  | case2 a entries => exact h
  | case3 k a entries hne ih =>
    rw [List.map_cons, List.nodup_cons] at h ⊢
    refine ⟨fun hmem => ?_, ih h.2⟩
    rcases mem_changeEntry.mp hmem with hmem | rfl
    · exact h.1 hmem
    · exact hne rfl

end Entries

section Leaves
variable {cfg cfg' : Config} {kv : KeyValue} {n : ℕ} {name value : Text}

theorem mem_foldLower {d : Char} (hd : d.toNat < 65) (h : d ∈ foldLower name) : d ∈ name := by
  obtain ⟨c, hc, hcd⟩ := List.mem_map.mp h
  exact eq_of_toLower hd hcd ▸ hc

theorem mem_foldUpper {d : Char} (hd : d.toNat < 65) (h : d ∈ foldUpper name) : d ∈ name := by
  obtain ⟨c, hc, hcd⟩ := List.mem_map.mp h
  exact eq_of_toUpper hd hcd ▸ hc

theorem keptName_foldLower (hne : name ≠ []) (h : '\n' ∉ name) : KeptName (foldLower name) where
  folded := foldLower_foldLower name
  named := fun hnil => hne (List.map_eq_nil_iff.mp hnil)
  newline := fun hmem => h (mem_foldLower (by decide) hmem)

theorem quoted_unquote (h : isQuoted value = true) : quoted (unquote value) = value := by
  rw [isQuoted, Bool.and_eq_true, Bool.and_eq_true, decide_eq_true_eq, beq_iff_eq, beq_iff_eq] at h
  obtain ⟨⟨hlen, hfirst⟩, hlast⟩ := h
  obtain ⟨t, rfl⟩ := List.head?_eq_some_iff.mp hfirst
  have hne : t ≠ [] := by
    rintro rfl
    exact absurd hlen (by decide)
  have hlast' : t.getLast? = some '"' := by
    rw [List.getLast?_cons_of_ne_nil hne] at hlast
    exact hlast
  obtain ⟨u, rfl⟩ := List.getLast?_eq_some_iff.mp hlast'
  rw [quoted, unquote, List.drop_one, List.tail_cons, List.dropLast_concat]

theorem quotable_unquote (h : isQuoted value = true) (hnewline : '\n' ∉ value) (hkept : Kept false value) :
    Quotable (unquote value) := by
  rw [← quoted_unquote h] at hnewline hkept
  constructor
  · exact fun hmem => hnewline (List.mem_cons_of_mem _ (List.mem_append_left _ hmem))
  · exact (kept_cons.mp hkept).2

theorem parseStringValue_quotable {context t : Text} (h : parseStringValue value n context = .ok t)
    (hnewline : '\n' ∉ value) (hkept : Kept false value) : Quotable t := by
  rw [parseStringValue_eq h]
  exact quotable_unquote (parseStringValue_ok_iff.mp ⟨t, h⟩) hnewline hkept

/-- The keys of tables and columns have no quotes. -/
theorem no_quote_key {key : Text} (h : key ∈ ["class".toList, "skip".toList, "cpp_type".toList,
    "converter".toList]) : '"' ∉ key := by
  simp only [List.mem_cons, List.not_mem_nil, or_false] at h
  rcases h with rfl | rfl | rfl | rfl <;> decide

structure CleanKey (kv : KeyValue) : Prop where
  key : '\n' ∉ kv.key
  value : '\n' ∉ kv.value
  kept : '"' ∉ kv.key → Kept false kv.value

theorem tableSetting_writable {change : TableEntry → TableEntry} (h : tableSetting kv n = .ok change)
    (hkv : CleanKey kv) {e : Text × TableEntry} (he : WritableTable e) :
    WritableTable (e.1, change e.2) := by
  rw [tableSetting] at h
  split_ifs at h with hclass hskip
  · obtain ⟨t, hvalue, hpure⟩ := bind_eq_ok.mp h
    obtain rfl := Except.ok.inj hpure
    have hquote : '"' ∉ kv.key := no_quote_key (by rw [hclass]; exact List.mem_cons_self)
    have hquotable := parseStringValue_quotable hvalue hkv.value (hkv.kept hquote)
    exact ⟨he.name, fun v hv => Option.some.inj hv ▸ hquotable, he.distinct, he.columns⟩
  · obtain ⟨skip, -, hpure⟩ := bind_eq_ok.mp h
    obtain rfl := Except.ok.inj hpure
    exact ⟨he.name, he.className, he.distinct, he.columns⟩

theorem columnSetting_writable {change : ColumnOverride → ColumnOverride}
    (h : columnSetting kv n = .ok change) (hkv : CleanKey kv) (hname : KeptName name) {c : ColumnOverride}
    (hc : c = {} ∨ WritableColumn (name, c)) : WritableColumn (name, change c) := by
  have hcppType : ∀ v ∈ c.cppType, Quotable v := by
    rcases hc with rfl | hc
    · exact fun v hv => absurd hv (Option.not_mem_none v)
    · exact hc.cppType
  have hconverter : ∀ v ∈ c.converter, Quotable v := by
    rcases hc with rfl | hc
    · exact fun v hv => absurd hv (Option.not_mem_none v)
    · exact hc.converter
  rw [columnSetting] at h
  split_ifs at h with htype hconv
  · obtain ⟨t, hvalue, hpure⟩ := bind_eq_ok.mp h
    obtain rfl := Except.ok.inj hpure
    have hquote : '"' ∉ kv.key := no_quote_key (by rw [htype]; simp)
    have hquotable := parseStringValue_quotable hvalue hkv.value (hkv.kept hquote)
    exact ⟨hname, .inl (Option.some_ne_none t), fun v hv => Option.some.inj hv ▸ hquotable, hconverter⟩
  · obtain ⟨t, hvalue, hpure⟩ := bind_eq_ok.mp h
    obtain rfl := Except.ok.inj hpure
    have hquote : '"' ∉ kv.key := no_quote_key (by rw [hconv]; simp)
    have hquotable := parseStringValue_quotable hvalue hkv.value (hkv.kept hquote)
    exact ⟨hname, .inr (Option.some_ne_none t), hcppType, fun v hv => Option.some.inj hv ▸ hquotable⟩

theorem writable_changeTable {change : TableEntry → TableEntry} (hcfg : Writable cfg) (hne : name ≠ [])
    (hnewline : '\n' ∉ name) (hchange : ∀ t, WritableTable (foldLower name, t) →
      WritableTable (foldLower name, change t)) : Writable (changeTable cfg name change) where
  distinctTypes := hcfg.distinctTypes
  types := hcfg.types
  distinct := nodup_changeEntry hcfg.distinct
  tables := by
    have hname := keptName_foldLower hne hnewline
    refine forall_changeEntry hcfg.tables fun t ht => hchange t ?_
    rcases ht with rfl | ht
    · exact ⟨hname, fun v hv => absurd hv (Option.not_mem_none v), List.nodup_nil,
        fun c hc => absurd hc List.not_mem_nil⟩
    · exact ht

/-- A key that is read leaves a config that can be written where there was one. -/
theorem applySetting_writable {parts : List Text} (h : applySetting cfg parts kv n = .ok cfg')
    (hparts : ∀ part ∈ parts, '\n' ∉ part) (hkv : CleanKey kv) (hcfg : Writable cfg) : Writable cfg' := by
  unfold applySetting at h
  split at h
  · cases h
  · split_ifs at h
    obtain ⟨t, hvalue, hpure⟩ := bind_eq_ok.mp h
    obtain rfl := Except.ok.inj hpure
    refine ⟨nodup_changeEntry hcfg.distinctTypes, forall_changeEntry hcfg.types fun a _ => ?_,
      hcfg.distinct, hcfg.tables⟩
    refine ⟨foldUpper_foldUpper kv.key, fun hmem => hkv.key (mem_foldUpper (by decide) hmem),
      fun hquote => ?_⟩
    have hkey : '"' ∉ kv.key := fun hmem => hquote (List.mem_map.mpr ⟨_, hmem, rfl⟩)
    exact parseStringValue_quotable hvalue hkv.value (hkv.kept hkey)
  · rename_i kind table more
    split_ifs at h with hkind hempty
    have htable : '\n' ∉ table := hparts table (List.mem_cons_of_mem _ List.mem_cons_self)
    split at h
    · obtain ⟨change, hchange, hpure⟩ := bind_eq_ok.mp h
      obtain rfl := Except.ok.inj hpure
      exact writable_changeTable hcfg hempty htable fun t ht => tableSetting_writable hchange hkv ht
    · rename_i columns column
      split_ifs at h with hcolumns hcolumn
      obtain ⟨change, hchange, hpure⟩ := bind_eq_ok.mp h
      obtain rfl := Except.ok.inj hpure
      have hname : KeptName (foldLower column) := keptName_foldLower hcolumn (hparts column (by simp))
      refine writable_changeTable hcfg hempty htable fun t ht => ⟨ht.name, ht.className, ?_, ?_⟩
      · exact nodup_changeEntry ht.distinct
      · exact forall_changeEntry ht.columns fun c hc => columnSetting_writable hchange hkv hname hc
    · cases h

end Leaves

structure Held (s : Config × List Text) : Prop where
  writable : Writable s.1
  parts : ∀ part ∈ s.2, '\n' ∉ part

theorem parseLine_held {s s' : Config × List Text} {l : Text × ℕ} (h : parseLine s l = .ok s')
    (hl : CleanLine l.1) (hs : Held s) : Held s' := by
  unfold parseLine at h
  split at h
  · obtain rfl := Except.ok.inj h
    exact hs
  · rename_i cs hheader
    obtain ⟨parts, hparts, hpure⟩ := bind_eq_ok.mp h
    obtain rfl := Except.ok.inj hpure
    refine ⟨hs.writable, fun part hpart hmem => hl.newline ?_⟩
    rw [hheader]
    exact parseSection_mem hparts part hpart _ hmem
  · split_ifs at h
    obtain ⟨kv, hkv, hrest⟩ := bind_eq_ok.mp h
    obtain ⟨cfg, happly, hpure⟩ := bind_eq_ok.mp hrest
    obtain rfl := Except.ok.inj hpure
    obtain ⟨hkey, hvalue, hkept⟩ := parseKeyValue_parts hkv hl
    exact ⟨applySetting_writable happly hs.parts ⟨hkey, hvalue, hkept⟩ hs.writable, hs.parts⟩

theorem foldlM_parseLine_held {lines : List (Text × ℕ)} {s s' : Config × List Text}
    (h : lines.foldlM parseLine s = .ok s') (hlines : ∀ l ∈ lines, CleanLine l.1) (hs : Held s) :
    Held s' := by
  induction lines generalizing s with
  | nil =>
    obtain rfl := Except.ok.inj h
    exact hs
  | cons l lines ih =>
    rw [List.foldlM_cons] at h
    obtain ⟨s₁, hline, hmore⟩ := bind_eq_ok.mp h
    rw [List.forall_mem_cons] at hlines
    exact ih hmore hlines.2 (parseLine_held hline hlines.1 hs)

theorem parseConfig_writable {toml : Text} {cfg : Config} (h : parseConfig toml = .ok cfg) :
    Writable cfg := by
  obtain ⟨s, hs, rfl⟩ := map_eq_ok.mp h
  have hempty : Writable {} := ⟨List.nodup_nil, fun e he => absurd he List.not_mem_nil, List.nodup_nil,
    fun e he => absurd he List.not_mem_nil⟩
  exact (foldlM_parseLine_held hs clean_numberedLines
    ⟨hempty, fun part hpart => absurd hpart List.not_mem_nil⟩).writable

/-- Where no name has a quote, the configs that are read from some text are those that can be written,
and what is written is read back. -/
theorem config_reads_back {cfg : Config} (hnames : ∀ name ∈ cfg.names, '"' ∉ name) :
    ((∃ toml, parseConfig toml = .ok cfg) ↔ Writable cfg) ∧
      (Writable cfg → parseConfig (configText cfg) = .ok cfg) := by
  have hback : Writable cfg → parseConfig (configText cfg) = .ok cfg :=
    fun h => parseConfig_configText h hnames
  exact ⟨⟨fun ⟨_, h⟩ => parseConfig_writable h, fun h => ⟨_, hback h⟩⟩, hback⟩

/-- A table and a column of it, under names that are folded. -/
def renamedUsers : Config where
  tables := [("users".toList,
    { className := some "user".toList
      columns := [("e-mail".toList, { converter := some "a#1".toList })] })]

theorem renamed_users_read_back : parseConfig (configText renamedUsers) = .ok renamedUsers := by
  have hnames : ∀ name ∈ renamedUsers.names, '"' ∉ name := by decide
  have hread : parseConfig ("[tables.Users]\nclass = \"user\" # renamed\n".toList ++
      "[tables.users.columns.\"E-Mail\"]\nconverter = \"a#1\"".toList) = .ok renamedUsers := rfl
  exact (config_reads_back hnames).2 ((config_reads_back hnames).1.mp ⟨_, hread⟩)

end Uniorm.Gen
