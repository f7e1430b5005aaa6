import Uniorm.Gen.LastKeys

/-! # A config written out

A config has a text: a key for each of its settings, under a section for each
table and column, every name between quotes. The text is read back as the config,
entry by entry in the order they stand, when no name is named twice and every
name and value can stand between quotes on a line of its own.
-/
namespace Uniorm.Gen

open Foundation Sql Builder Cpp

def quoted (text : Text) : Text := '"' :: (text ++ ['"'])

def keyLine (key value : Text) : Text := quoted key ++ " = ".toList ++ value

def typesHeader : Text := "[types]".toList

def tableHeader (table : Text) : Text := "[tables.".toList ++ quoted table ++ [']']

def columnHeader (table column : Text) : Text :=
  "[tables.".toList ++ quoted table ++ ".columns.".toList ++ quoted column ++ [']']

def boolText (b : Bool) : Text := if b then "true".toList else "false".toList

def settingLines (key : Text) (value : Option Text) : List Text :=
  value.toList.map fun v => keyLine key (quoted v)

def columnLines (table : Text) (e : Text × ColumnOverride) : List Text :=
  columnHeader table e.1 ::
    (settingLines "cpp_type".toList e.2.cppType ++ settingLines "converter".toList e.2.converter)

/-- Whether it is skipped is written for every table, so that one without other settings has an entry. -/
def tableLines (e : Text × TableEntry) : List Text :=
  tableHeader e.1 :: keyLine "skip".toList (boolText e.2.skip) ::
    (settingLines "class".toList e.2.className ++ e.2.columns.flatMap (columnLines e.1))

def configLines (cfg : Config) : List Text :=
  typesHeader :: ((cfg.typeOverrides.map fun e => keyLine e.1 (quoted e.2)) ++
    cfg.tables.flatMap tableLines)

def configText (cfg : Config) : Text := join (configLines cfg) ['\n']

def quotesAfter (inQuotes : Bool) (s : Text) : Bool :=
  s.foldl (fun q c => if c = '"' then !q else q) inQuotes

def Kept (inQuotes : Bool) (s : Text) : Prop := stripComment inQuotes s = s

instance (inQuotes : Bool) (s : Text) : Decidable (Kept inQuotes s) :=
  inferInstanceAs (Decidable (stripComment inQuotes s = s))

section Comments
variable {q : Bool} {a b s : Text}

theorem kept_cons {c : Char} : Kept q (c :: s) ↔
    ¬ (c = '#' ∧ !q) ∧ Kept (if c = '"' then !q else q) s := by
  rw [Kept, stripComment]
  by_cases hquote : c = '"'
  · have hhash : c ≠ '#' := by
      rw [hquote]
      decide
    rw [if_pos hquote, if_pos hquote, List.cons.injEq, and_iff_right rfl, Kept,
      and_iff_right fun h => hhash h.1]
  · rw [if_neg hquote, if_neg hquote]
    by_cases hhash : c = '#' ∧ !q
    · rw [if_pos hhash]
      exact iff_of_false (List.cons_ne_nil _ _).symm fun h => h.1 hhash
    · rw [if_neg hhash, List.cons.injEq, and_iff_right rfl, and_iff_right hhash, Kept]

theorem quotesAfter_cons {c : Char} : quotesAfter q (c :: s) = quotesAfter (if c = '"' then !q else q) s :=
  List.foldl_cons ..

theorem kept_append : Kept q (a ++ b) ↔ Kept q a ∧ Kept (quotesAfter q a) b := by
  induction a generalizing q with
  | nil => exact (and_iff_right rfl).symm
  | cons c a ih => rw [List.cons_append, kept_cons, kept_cons, ih, and_assoc, quotesAfter_cons]

theorem quotesAfter_append : quotesAfter q (a ++ b) = quotesAfter (quotesAfter q a) b :=
  List.foldl_append ..

theorem quotesAfter_of_not_mem (h : '"' ∉ s) : quotesAfter q s = q := by
  induction s with
  | nil => rfl
  | cons c s ih =>
    rw [List.mem_cons, not_or] at h
    rw [quotesAfter_cons, if_neg (Ne.symm h.1)]
    exact ih h.2

/-- Between quotes there is no comment. -/
theorem kept_inside (h : '"' ∉ s) : Kept true s := by
  induction s with
  | nil => rfl
  | cons c s ih =>
    rw [List.mem_cons, not_or] at h
    rw [kept_cons, if_neg (Ne.symm h.1)]
    exact ⟨fun hhash => Bool.false_ne_true hhash.2, ih h.2⟩

theorem kept_stripComment : Kept q (stripComment q s) := by
  fun_induction stripComment q s with
  | case1 => rfl
  | case2 q cs ih =>
    rw [kept_cons, if_pos rfl]
    exact ⟨fun hhash => absurd hhash.1 (by decide), ih⟩
  | case3 => rfl
  | case4 q c cs hquote hhash ih =>
    rw [kept_cons, if_neg hquote]
    exact ⟨hhash, ih⟩

/-- The text may stand in front of others on a line. -/
structure Neutral (s : Text) : Prop where
  kept : Kept false s
  closed : quotesAfter false s = false

theorem Neutral.kept_append (h : Neutral a) (hb : Kept false b) : Kept false (a ++ b) := by
  rw [Gen.kept_append, h.closed]
  exact ⟨h.kept, hb⟩

theorem Neutral.append (h : Neutral a) (hb : Neutral b) : Neutral (a ++ b) := by
  refine ⟨h.kept_append hb.kept, ?_⟩
  rw [quotesAfter_append, h.closed, hb.closed]

theorem neutral_quoted (h : '"' ∉ s) : Neutral (quoted s) := by
  constructor
  · rw [quoted, kept_cons, if_pos rfl]
    refine ⟨fun hhash => absurd hhash.1 (by decide), Gen.kept_append.mpr ⟨kept_inside h, ?_⟩⟩
    rw [Bool.not_false, quotesAfter_of_not_mem h]
    rfl
  · change quotesAfter true (s ++ ['"']) = false
    rw [quotesAfter_append, quotesAfter_of_not_mem h]
    rfl

end Comments

structure PlainLine (line : Text) : Prop where
  newline : '\n' ∉ line
  kept : Kept false line
  first : line.head?.any isSpace = false
  last : line.getLast?.any isSpace = false

theorem PlainLine.read {line : Text} (h : PlainLine line) : trim (stripComment false line) = line := by
  rw [show stripComment false line = line from h.kept]
  exact trimBy_of_not_outer h.first h.last

theorem numberedLines_join {lines : List Text} (hne : lines ≠ []) (h : ∀ l ∈ lines, PlainLine l) :
    numberedLines (join lines ['\n']) = lines.zipIdx 1 := by
  rw [numberedLines, join, List.splitOn_intercalate '\n' (fun l hl => (h l hl).newline) hne]
  have hread : (lines.map fun raw => trim (stripComment false raw)) = lines.map id :=
    List.map_congr_left fun l hl => (h l hl).read
  rw [hread, List.map_id]

def Steps (s : Config × List Text) (lines : List Text) (s' : Config × List Text) : Prop :=
  ∀ n, (lines.zipIdx n).foldlM parseLine s = .ok s'

section Steps
variable {s s₁ s' : Config × List Text} {line : Text} {lines more : List Text}

theorem steps_nil : Steps s [] s := fun _ => rfl

theorem Steps.cons (h : ∀ n, parseLine s (line, n) = .ok s₁) (hmore : Steps s₁ lines s') :
    Steps s (line :: lines) s' := by
  intro n
  rw [List.zipIdx_cons, List.foldlM_cons, h]
  exact hmore (n + 1)

theorem Steps.append (h : Steps s lines s₁) (hmore : Steps s₁ more s') : Steps s (lines ++ more) s' := by
  intro n
  rw [List.zipIdx_append, List.foldlM_append, h]
  exact hmore _

end Steps

section Tokens
variable {n rounds : ℕ} {stop : Char} {name rest : Text}

theorem readToken_quoted (h : '"' ∉ name) : readToken n stop (quoted name ++ rest) = .ok (name, rest) := by
  have hclose : ∀ c ∈ name, (c != '"') = true := fun c hc => bne_iff_ne.mpr (ne_of_mem_of_not_mem hc h)
  have htake : (name ++ '"' :: rest).takeWhile (· != '"') = name := by
    rw [List.takeWhile_append_of_pos hclose, List.takeWhile_cons_of_neg (by decide), List.append_nil]
  have hdrop : (name ++ '"' :: rest).dropWhile (· != '"') = '"' :: rest := by
    rw [List.dropWhile_append_of_pos hclose, List.dropWhile_cons_of_neg (by decide)]
  have htext : quoted name ++ rest = '"' :: (name ++ '"' :: rest) := by
    rw [quoted, List.cons_append, List.append_assoc, List.singleton_append]
  rw [htext, readToken, hdrop]
  exact congrArg (fun t => Except.ok (t, rest)) htake

theorem sectionParts_last (h : '"' ∉ name) : sectionParts n (rounds + 1) (quoted name) = .ok [name] := by
  have hread : readToken n '.' (quoted name ++ []) = .ok (name, []) := readToken_quoted h
  rw [List.append_nil] at hread
  rw [sectionParts, show skipSpaces (quoted name) = quoted name from rfl, hread]
  rfl

theorem sectionParts_dot {body more : Text} {token : Text} {parts : List Text}
    (hread : readToken n '.' (skipSpaces body) = .ok (token, '.' :: more))
    (hmore : sectionParts n rounds more = .ok parts) :
    sectionParts n (rounds + 1) body = .ok (token :: parts) := by
  rw [sectionParts, hread]
  change (sectionParts n rounds more >>= _) = _
  rw [hmore]
  rfl

theorem parseSection_body {body : Text} {parts : List Text} (hlen : 3 ≤ body.length)
    (h : ∀ rounds, sectionParts n (rounds + 4) body = .ok parts) :
    parseSection n ('[' :: (body ++ [']'])) = .ok parts := by
  have hlast : ('[' :: (body ++ [']'])).getLast? = some ']' := by
    rw [← List.cons_append, List.getLast?_concat]
  have hbody : (('[' :: (body ++ [']'])).drop 1).dropLast = body := by
    rw [List.drop_one, List.tail_cons, List.dropLast_concat]
  obtain ⟨rounds, hrounds⟩ := Nat.exists_eq_add_of_le' hlen
  have hread : sectionParts n (body.length + 1) body = .ok parts := by
    rw [hrounds]
    exact h rounds
  rw [parseSection, if_pos hlast, hbody]
  exact hread

theorem readToken_tables : readToken n '.' (skipSpaces ("tables.".toList ++ rest)) =
    .ok ("tables".toList, '.' :: rest) := by
  simp only [String.reduceToList]
  rfl

theorem readToken_columns : readToken n '.' (skipSpaces ("columns.".toList ++ rest)) =
    .ok ("columns".toList, '.' :: rest) := by
  simp only [String.reduceToList]
  rfl

theorem parseSection_table (h : '"' ∉ name) :
    parseSection n (tableHeader name) = .ok ["tables".toList, name] := by
  have htext : tableHeader name = '[' :: (("tables.".toList ++ quoted name) ++ [']']) := by
    delta tableHeader
    simp only [String.reduceToList, List.cons_append]
  rw [htext]
  refine parseSection_body ?_ fun rounds => sectionParts_dot readToken_tables (sectionParts_last h)
  rw [List.length_append]
  exact Nat.le_add_right_of_le (by decide)

theorem parseSection_column {column : Text} (h : '"' ∉ name) (hcolumn : '"' ∉ column) :
    parseSection n (columnHeader name column) =
      .ok ["tables".toList, name, "columns".toList, column] := by
  have htext : columnHeader name column =
      '[' :: (("tables.".toList ++ (quoted name ++ '.' :: ("columns.".toList ++ quoted column))) ++
        [']']) := by
    delta columnHeader
    simp only [String.reduceToList, List.cons_append, List.append_assoc, List.nil_append]
  rw [htext]
  refine parseSection_body ?_ fun rounds => sectionParts_dot readToken_tables
    (sectionParts_dot (readToken_quoted h) (sectionParts_dot readToken_columns (sectionParts_last hcolumn)))
  rw [List.length_append]
  exact Nat.le_add_right_of_le (by decide)

theorem keyLine_eq {key value : Text} : keyLine key value = quoted key ++ ' ' :: '=' :: ' ' :: value := by
  delta keyLine
  simp only [String.reduceToList, List.append_assoc, List.cons_append, List.nil_append]

theorem parseKeyValue_keyLine {key value : Text} (h : '"' ∉ key) (hne : value ≠ [])
    (hfirst : value.head?.any isSpace = false) (hlast : value.getLast?.any isSpace = false) :
    parseKeyValue n (keyLine key value) = .ok ⟨key, value⟩ := by
  have htrim : trim (' ' :: value) = value := by
    rw [trim, trimBy_cons rfl, trimBy_of_not_outer hfirst hlast]
  rw [keyLine_eq, parseKeyValue, readToken_quoted h]
  change (if trim (' ' :: value) = [] then _ else pure (KeyValue.mk key (trim (' ' :: value)))) = _
  rw [htrim, if_neg hne]
  rfl

end Tokens

/-- A text that can stand between quotes at the end of a line. -/
structure Quotable (value : Text) : Prop where
  newline : '\n' ∉ value
  kept : Kept true (value ++ ['"'])

structure KeptName (name : Text) : Prop where
  folded : foldLower name = name
  named : name ≠ []
  newline : '\n' ∉ name

structure WritableColumn (e : Text × ColumnOverride) : Prop where
  name : KeptName e.1
  overridden : e.2.cppType ≠ none ∨ e.2.converter ≠ none
  cppType : ∀ v ∈ e.2.cppType, Quotable v
  converter : ∀ v ∈ e.2.converter, Quotable v

structure WritableTable (e : Text × TableEntry) : Prop where
  name : KeptName e.1
  className : ∀ v ∈ e.2.className, Quotable v
  distinct : (e.2.columns.map Prod.fst).Nodup
  columns : ∀ c ∈ e.2.columns, WritableColumn c

/-- A type's key may have a quote when it is read without quotes around it, and what follows on that
line is then told apart another way. -/
structure WritableType (e : Text × Text) : Prop where
  folded : foldUpper e.1 = e.1
  newline : '\n' ∉ e.1
  value : '"' ∉ e.1 → Quotable e.2

structure Writable (cfg : Config) : Prop where
  distinctTypes : (cfg.typeOverrides.map Prod.fst).Nodup
  types : ∀ e ∈ cfg.typeOverrides, WritableType e
  distinct : (cfg.tables.map Prod.fst).Nodup
  tables : ∀ e ∈ cfg.tables, WritableTable e

def Config.names (cfg : Config) : List Text :=
  cfg.typeOverrides.map Prod.fst ++ cfg.tables.flatMap fun e => e.1 :: e.2.columns.map Prod.fst

section Plain
variable {key value table column line : Text}

theorem Quotable.kept_quoted (h : Quotable value) : Kept false (quoted value) :=
  kept_cons.mpr ⟨fun hhash => absurd hhash.1 (by decide), h.kept⟩

theorem newline_quoted (h : '\n' ∉ value) : '\n' ∉ quoted value := by
  simp only [quoted, List.mem_cons, List.mem_append, List.not_mem_nil, or_false]
  rintro (hnew | hnew | hnew)
  · exact absurd hnew (by decide)
  · exact h hnew
  · exact absurd hnew (by decide)

theorem getLast_quoted : (quoted value).getLast? = some '"' := by
  rw [quoted, ← List.cons_append, List.getLast?_concat]

theorem plain_keyLine (hkey : '"' ∉ key) (hnewline : '\n' ∉ key) (hvalue : '\n' ∉ value)
    (hkept : Kept false value) (hne : value ≠ []) (hlast : value.getLast?.any isSpace = false) :
    PlainLine (keyLine key value) where
  newline := by
    rw [keyLine_eq]
    simp only [List.mem_append, List.mem_cons, not_or]
    exact ⟨newline_quoted hnewline, by decide, by decide, by decide, hvalue⟩
  kept := by
    rw [keyLine_eq]
    have hequals : Neutral [' ', '=', ' '] := ⟨rfl, rfl⟩
    exact (neutral_quoted hkey).kept_append (hequals.kept_append hkept)
  first := rfl
  last := by
    have htext : keyLine key value = quoted key ++ [' ', '=', ' '] ++ value := by
      rw [keyLine_eq, List.append_assoc]
      rfl
    obtain ⟨c, hc⟩ := Option.isSome_iff_exists.mp (List.getLast?_isSome.mpr hne)
    rw [htext, List.getLast?_append, hc, Option.some_or, ← hc]
    exact hlast

theorem Quotable.plain_keyLine (h : Quotable value) (hkey : '"' ∉ key) (hnewline : '\n' ∉ key) :
    PlainLine (keyLine key (quoted value)) :=
  Gen.plain_keyLine hkey hnewline (newline_quoted h.newline) h.kept_quoted (List.cons_ne_nil _ _)
    (congrArg (Option.any isSpace) getLast_quoted)

theorem plain_tableHeader (hquote : '"' ∉ table) (hnewline : '\n' ∉ table) :
    PlainLine (tableHeader table) where
  newline := by
    delta tableHeader
    simp only [String.reduceToList, List.mem_append, List.mem_cons, List.not_mem_nil, not_or]
    exact ⟨⟨by decide, newline_quoted hnewline⟩, by decide, id⟩
  kept := by
    have hopen : Neutral "[tables.".toList := ⟨by decide, by decide⟩
    have hclose : Neutral [']'] := ⟨rfl, rfl⟩
    exact ((hopen.append (neutral_quoted hquote)).append hclose).kept
  first := by
    delta tableHeader
    simp only [String.reduceToList]
    rfl
  last := by
    delta tableHeader
    rw [List.getLast?_concat]
    rfl

theorem plain_columnHeader (hquote : '"' ∉ table) (hnewline : '\n' ∉ table) (hquote' : '"' ∉ column)
    (hnewline' : '\n' ∉ column) : PlainLine (columnHeader table column) where
  newline := by
    delta columnHeader
    simp only [String.reduceToList, List.mem_append, List.mem_cons, List.not_mem_nil, not_or]
    exact ⟨⟨⟨⟨by decide, newline_quoted hnewline⟩, by decide⟩, newline_quoted hnewline'⟩, by decide, id⟩
  kept := by
    have hopen : Neutral "[tables.".toList := ⟨by decide, by decide⟩
    have hcolumns : Neutral ".columns.".toList := ⟨by decide, by decide⟩
    have hclose : Neutral [']'] := ⟨rfl, rfl⟩
    exact ((((hopen.append (neutral_quoted hquote)).append hcolumns).append
      (neutral_quoted hquote')).append hclose).kept
  first := by
    delta columnHeader
    simp only [String.reduceToList]
    rfl
  last := by
    delta columnHeader
    rw [List.getLast?_concat]
    rfl

end Plain

section Entries
variable {α : Type} {key : Text} {default a : α} {change : α → α} {entries : List (Text × α)}

theorem changeEntry_new (h : key ∉ entries.map Prod.fst) :
    changeEntry key default change entries = entries ++ [(key, change default)] := by
  fun_induction changeEntry key default change entries with
  | case1 => rfl
  | case2 a entries => exact absurd List.mem_cons_self h
  | case3 k a entries hne ih =>
    rw [ih fun hmem => h (List.mem_cons_of_mem _ hmem)]
    rfl

theorem changeEntry_last (h : key ∉ entries.map Prod.fst) :
    changeEntry key default change (entries ++ [(key, a)]) = entries ++ [(key, change a)] := by
  induction entries with
  | nil => exact if_pos rfl
  | cons e entries ih =>
    rw [List.map_cons, List.mem_cons, not_or] at h
    rw [List.cons_append, changeEntry, if_neg (Ne.symm h.1), ih h.2]
    rfl

end Entries

section Back
variable {cfg : Config} {key value table column : Text} {types done : List (Text × Text)}
  {tables : List (Text × TableEntry)}

theorem step_keyLine {cfg' : Config} {parts : List Text} (hsection : parts ≠ []) (hkey : '"' ∉ key)
    (hne : value ≠ []) (hfirst : value.head?.any isSpace = false)
    (hlast : value.getLast?.any isSpace = false)
    (happly : ∀ n, applySetting cfg parts ⟨key, value⟩ n = .ok cfg') (n : ℕ) :
    parseLine (cfg, parts) (keyLine key value, n) = .ok (cfg', parts) := by
  have hhead : (keyLine key value).head? = some '"' := rfl
  have hline : (keyLine key value).head? ≠ some '[' := by
    rw [hhead]
    decide
  rw [parseLine_setting (List.cons_ne_nil _ _) hline hsection]
  change (parseKeyValue n (keyLine key value) >>= _) = _
  rw [parseKeyValue_keyLine hkey hne hfirst hlast]
  change (applySetting cfg parts ⟨key, value⟩ n >>= _) = _
  rw [happly]
  rfl

theorem parseStringValue_quoted (n : ℕ) (context : Text) :
    parseStringValue (quoted value) n context = .ok value := by
  have hquoted : isQuoted (quoted value) = true := by
    have hlen : 2 ≤ (quoted value).length := by
      rw [quoted, List.length_cons, List.length_append]
      exact Nat.succ_le_succ (Nat.le_add_left _ _)
    rw [isQuoted, getLast_quoted, decide_eq_true hlen]
    rfl
  have hvalue : ((quoted value).drop 1).dropLast = value := by
    rw [quoted, List.drop_one, List.tail_cons, List.dropLast_concat]
  rw [parseStringValue, if_pos hquoted, hvalue]

theorem step_quoted {cfg' : Config} {parts : List Text} (hsection : parts ≠ []) (hkey : '"' ∉ key)
    (happly : ∀ n, applySetting cfg parts ⟨key, quoted value⟩ n = .ok cfg') (n : ℕ) :
    parseLine (cfg, parts) (keyLine key (quoted value), n) = .ok (cfg', parts) :=
  step_keyLine hsection hkey (List.cons_ne_nil _ _) rfl (congrArg (Option.any isSpace) getLast_quoted)
    happly n

theorem step_header {line : Text} {s : Config × List Text} {parts : List Text} {n : ℕ}
    (hline : line.head? = some '[') (hread : parseSection n line = .ok parts) :
    parseLine s (line, n) = .ok (s.1, parts) := by
  obtain ⟨cs, rfl⟩ := List.head?_eq_some_iff.mp hline
  rw [parseLine]
  change (parseSection n ('[' :: cs) >>= _) = _
  rw [hread]
  rfl

theorem head_tableHeader : (tableHeader table).head? = some '[' := by
  delta tableHeader
  simp only [String.reduceToList]
  rfl

theorem head_columnHeader : (columnHeader table column).head? = some '[' := by
  delta columnHeader
  simp only [String.reduceToList]
  rfl

theorem step_typesHeader {s : Config × List Text} (n : ℕ) :
    parseLine s (typesHeader, n) = .ok (s.1, ["types".toList]) := by
  refine step_header (by decide) ?_
  rw [typesHeader]
  simp only [String.reduceToList]
  rfl

theorem steps_types (hnodup : ((done ++ types).map Prod.fst).Nodup)
    (htypes : ∀ e ∈ types, WritableType e) (hquote : ∀ e ∈ types, '"' ∉ e.1) :
    Steps (⟨done, tables⟩, ["types".toList]) (types.map fun e => keyLine e.1 (quoted e.2))
      (⟨done ++ types, tables⟩, ["types".toList]) := by
  induction types generalizing done with
  | nil =>
    rw [List.append_nil]
    exact steps_nil
  | cons e types ih =>
    have hnew : e.1 ∉ done.map Prod.fst := by
      intro hmem
      rw [List.map_append, List.map_cons] at hnodup
      exact (List.nodup_append.mp hnodup).2.2 _ hmem _ List.mem_cons_self rfl
    have hfolded := (htypes e List.mem_cons_self).folded
    have happly : ∀ n, applySetting ⟨done, tables⟩ ["types".toList] ⟨e.1, quoted e.2⟩ n =
        .ok ⟨done ++ [e], tables⟩ := by
      intro n
      rw [applySetting, if_pos rfl]
      change (parseStringValue (quoted e.2) n _ >>= _) = _
      rw [parseStringValue_quoted]
      change Except.ok (Config.mk (changeEntry (foldUpper e.1) [] (fun _ => e.2) done) tables) = _
      rw [hfolded, changeEntry_new hnew]
    refine Steps.cons (step_quoted (List.cons_ne_nil _ _) (hquote e List.mem_cons_self) happly) ?_
    rw [List.append_cons done e types]
    rw [List.append_cons done e types] at hnodup
    exact ih hnodup (fun e' he' => htypes e' (List.mem_cons_of_mem _ he'))
      fun e' he' => hquote e' (List.mem_cons_of_mem _ he')

theorem applySetting_table {kv : KeyValue} {n : ℕ} (hne : table ≠ []) :
    applySetting cfg ["tables".toList, table] kv n =
      tableSetting kv n >>= fun change => pure (changeTable cfg table change) := by
  rw [applySetting, if_neg (not_not.mpr rfl), if_neg hne]

theorem applySetting_column {kv : KeyValue} {n : ℕ} (hne : table ≠ []) (hcolumn : column ≠ []) :
    applySetting cfg ["tables".toList, table, "columns".toList, column] kv n =
      columnSetting kv n >>= fun change => pure (changeTable cfg table fun t =>
        { t with columns := changeEntry (foldLower column) {} change t.columns }) := by
  rw [applySetting, if_neg (not_not.mpr rfl), if_neg hne]
  change (if "columns".toList ≠ "columns".toList then _ else _) = _
  rw [if_neg (not_not.mpr rfl), if_neg hcolumn]

theorem changeTable_last {t : TableEntry} {change : TableEntry → TableEntry}
    (hfolded : foldLower table = table) (hnew : table ∉ tables.map Prod.fst) :
    changeTable ⟨types, tables ++ [(table, t)]⟩ table change = ⟨types, tables ++ [(table, change t)]⟩ := by
  rw [changeTable, hfolded, changeEntry_last hnew]

theorem tableSetting_skip (b : Bool) (n : ℕ) :
    tableSetting ⟨"skip".toList, boolText b⟩ n = .ok fun t => { t with skip := b } := by
  cases b <;> rfl

theorem tableSetting_class (name : Text) (n : ℕ) :
    tableSetting ⟨"class".toList, quoted name⟩ n = .ok fun t => { t with className := some name } := by
  generalize hkv : KeyValue.mk "class".toList (quoted name) = kv
  have hkey : kv.key = "class".toList := congrArg KeyValue.key hkv.symm
  have hvalue : kv.value = quoted name := congrArg KeyValue.value hkv.symm
  rw [tableSetting, if_pos hkey, hvalue]
  change (parseStringValue (quoted name) n _ >>= _) = _
  rw [parseStringValue_quoted]
  rfl

theorem columnSetting_cppType (name : Text) (n : ℕ) :
    columnSetting ⟨"cpp_type".toList, quoted name⟩ n = .ok fun c => { c with cppType := some name } := by
  generalize hkv : KeyValue.mk "cpp_type".toList (quoted name) = kv
  have hkey : kv.key = "cpp_type".toList := congrArg KeyValue.key hkv.symm
  have hvalue : kv.value = quoted name := congrArg KeyValue.value hkv.symm
  rw [columnSetting, if_pos hkey, hvalue]
  change (parseStringValue (quoted name) n _ >>= _) = _
  rw [parseStringValue_quoted]
  rfl

theorem columnSetting_converter (name : Text) (n : ℕ) :
    columnSetting ⟨"converter".toList, quoted name⟩ n = .ok fun c => { c with converter := some name } := by
  have hne : "cpp_type".toList ≠ "converter".toList := by decide
  generalize hkv : KeyValue.mk "converter".toList (quoted name) = kv
  have hkey : kv.key = "converter".toList := congrArg KeyValue.key hkv.symm
  have hvalue : kv.value = quoted name := congrArg KeyValue.value hkv.symm
  have hnot : kv.key ≠ "cpp_type".toList := fun heq => hne (heq.symm.trans hkey)
  rw [columnSetting, if_neg hnot, if_pos hkey, hvalue]
  change (parseStringValue (quoted name) n _ >>= _) = _
  rw [parseStringValue_quoted]
  rfl

theorem steps_column {t : TableEntry} {parts : List Text} {e : Text × ColumnOverride}
    (htable : KeptName table) (hquote : '"' ∉ table) (hnew : table ∉ tables.map Prod.fst)
    (he : WritableColumn e) (hequote : '"' ∉ e.1) (henew : e.1 ∉ t.columns.map Prod.fst) :
    Steps (⟨types, tables ++ [(table, t)]⟩, parts) (columnLines table e)
      (⟨types, tables ++ [(table, { t with columns := t.columns ++ [e] })]⟩,
        ["tables".toList, table, "columns".toList, e.1]) := by
  refine Steps.cons (fun n => step_header head_columnHeader (parseSection_column hquote hequote)) ?_
  -- one setting, whatever it does to the column
  have hstep : ∀ {u : TableEntry} {key value : Text} {change : ColumnOverride → ColumnOverride},
      '"' ∉ key → (∀ n, columnSetting ⟨key, quoted value⟩ n = .ok change) → ∀ n,
        parseLine (⟨types, tables ++ [(table, u)]⟩, ["tables".toList, table, "columns".toList, e.1])
          (keyLine key (quoted value), n) =
        .ok (⟨types, tables ++ [(table, { u with columns := changeEntry e.1 {} change u.columns })]⟩,
          ["tables".toList, table, "columns".toList, e.1]) := by
    intro u key value change hkey hsetting n
    refine step_quoted (List.cons_ne_nil _ _) hkey (fun n => ?_) n
    rw [applySetting_column htable.named he.name.named, hsetting]
    change Except.ok (changeTable _ table _) = _
    rw [changeTable_last htable.folded hnew, he.name.folded]
  have hcppType := fun (u : TableEntry) (v : Text) =>
    @hstep u _ v _ (by decide : '"' ∉ "cpp_type".toList) (columnSetting_cppType v)
  have hconverter := fun (u : TableEntry) (v : Text) =>
    @hstep u _ v _ (by decide : '"' ∉ "converter".toList) (columnSetting_converter v)
  obtain ⟨name, ⟨cppType, converter⟩⟩ := e
  cases cppType with
  | none =>
    cases converter with
    | none => exact absurd rfl (he.overridden.elim id id)
    | some v =>
      have hsteps := Steps.cons (hconverter t v) steps_nil
      rw [changeEntry_new henew] at hsteps
      exact hsteps
  | some v =>
    cases converter with
    | none =>
      have hsteps := Steps.cons (hcppType t v) steps_nil
      rw [changeEntry_new henew] at hsteps
      exact hsteps
    | some w =>
      have hsteps := Steps.cons (hcppType t v) (Steps.cons (hconverter _ w) steps_nil)
      rw [changeEntry_new henew] at hsteps
      rw [changeEntry_last henew] at hsteps
      exact hsteps

theorem steps_columns {t : TableEntry} {columns : List (Text × ColumnOverride)} {parts : List Text}
    (htable : KeptName table) (hquote : '"' ∉ table) (hnew : table ∉ tables.map Prod.fst)
    (hcolumns : ∀ e ∈ columns, WritableColumn e) (hequote : ∀ e ∈ columns, '"' ∉ e.1)
    (hnodup : ((t.columns ++ columns).map Prod.fst).Nodup) :
    ∃ parts', Steps (⟨types, tables ++ [(table, t)]⟩, parts) (columns.flatMap (columnLines table))
      (⟨types, tables ++ [(table, { t with columns := t.columns ++ columns })]⟩, parts') := by
  induction columns generalizing t parts with
  | nil =>
    refine ⟨parts, ?_⟩
    rw [List.append_nil]
    exact steps_nil
  | cons e columns ih =>
    have henew : e.1 ∉ t.columns.map Prod.fst := by
      intro hmem
      rw [List.map_append, List.map_cons] at hnodup
      exact (List.nodup_append.mp hnodup).2.2 _ hmem _ List.mem_cons_self rfl
    rw [List.append_cons t.columns e columns] at hnodup ⊢
    obtain ⟨parts', hmore⟩ := ih (t := { t with columns := t.columns ++ [e] })
      (fun e' he' => hcolumns e' (List.mem_cons_of_mem _ he'))
      (fun e' he' => hequote e' (List.mem_cons_of_mem _ he')) hnodup
    exact ⟨parts', (steps_column htable hquote hnew (hcolumns e List.mem_cons_self)
      (hequote e List.mem_cons_self) henew).append hmore⟩

theorem steps_table {e : Text × TableEntry} {parts : List Text} (he : WritableTable e) (hquote : '"' ∉ e.1)
    (hcolumns : ∀ c ∈ e.2.columns, '"' ∉ c.1) (hnew : e.1 ∉ tables.map Prod.fst) :
    ∃ parts', Steps (⟨types, tables⟩, parts) (tableLines e) (⟨types, tables ++ [e]⟩, parts') := by
  obtain ⟨name, ⟨className, skip, columns⟩⟩ := e
  have hskip : ∀ n, parseLine (⟨types, tables⟩, ["tables".toList, name])
      (keyLine "skip".toList (boolText skip), n) =
      .ok (⟨types, tables ++ [(name, { skip := skip })]⟩, ["tables".toList, name]) := by
    have hword : boolText skip ≠ [] ∧ (boolText skip).head?.any isSpace = false ∧
        (boolText skip).getLast?.any isSpace = false := by
      cases skip <;> decide
    intro n
    refine step_keyLine (List.cons_ne_nil _ _) (by decide) hword.1 hword.2.1 hword.2.2 (fun n => ?_) n
    rw [applySetting_table he.name.named, tableSetting_skip]
    change Except.ok (Config.mk types (changeEntry (foldLower name) {} _ tables)) = _
    rw [he.name.folded, changeEntry_new hnew]
  have hclass : ∃ parts', Steps (⟨types, tables ++ [(name, { skip := skip })]⟩, ["tables".toList, name])
      (settingLines "class".toList className)
      (⟨types, tables ++ [(name, { skip := skip, className := className })]⟩, parts') := by
    cases className with
    | none => exact ⟨_, steps_nil⟩
    | some v =>
      refine ⟨_, Steps.cons (step_quoted (List.cons_ne_nil _ _) (by decide) fun n => ?_) steps_nil⟩
      rw [applySetting_table he.name.named, tableSetting_class]
      change Except.ok (changeTable _ name _) = _
      rw [changeTable_last he.name.folded hnew]
  obtain ⟨parts₁, hclass⟩ := hclass
  obtain ⟨parts₂, hmore⟩ : ∃ parts₂, Steps
      (⟨types, tables ++ [(name, { skip := skip, className := className })]⟩, parts₁)
      (columns.flatMap (columnLines name))
      (⟨types, tables ++ [(name, ⟨className, skip, [] ++ columns⟩)]⟩, parts₂) :=
    steps_columns (t := { skip := skip, className := className }) he.name hquote hnew he.columns
      hcolumns he.distinct
  exact ⟨parts₂, Steps.cons (fun n => step_header head_tableHeader (parseSection_table hquote))
    (Steps.cons hskip (hclass.append hmore))⟩

theorem steps_tables {more : List (Text × TableEntry)} {parts : List Text}
    (hmore : ∀ e ∈ more, WritableTable e) (hquote : ∀ e ∈ more, '"' ∉ e.1)
    (hcolumns : ∀ e ∈ more, ∀ c ∈ e.2.columns, '"' ∉ c.1)
    (hnodup : ((tables ++ more).map Prod.fst).Nodup) :
    ∃ parts', Steps (⟨types, tables⟩, parts) (more.flatMap tableLines)
      (⟨types, tables ++ more⟩, parts') := by
  induction more generalizing tables parts with
  | nil =>
    refine ⟨parts, ?_⟩
    rw [List.append_nil]
    exact steps_nil
  | cons e more ih =>
    have hnew : e.1 ∉ tables.map Prod.fst := by
      intro hmem
      rw [List.map_append, List.map_cons] at hnodup
      exact (List.nodup_append.mp hnodup).2.2 _ hmem _ List.mem_cons_self rfl
    rw [List.append_cons tables e more] at hnodup ⊢
    obtain ⟨parts₁, hown⟩ : ∃ parts₁, Steps (⟨types, tables⟩, parts) (tableLines e)
        (⟨types, tables ++ [e]⟩, parts₁) :=
      steps_table (hmore e List.mem_cons_self) (hquote e List.mem_cons_self)
        (hcolumns e List.mem_cons_self) hnew
    obtain ⟨parts₂, hothers⟩ := @ih (tables ++ [e]) parts₁
      (fun e' he' => hmore e' (List.mem_cons_of_mem _ he'))
      (fun e' he' => hquote e' (List.mem_cons_of_mem _ he'))
      (fun e' he' => hcolumns e' (List.mem_cons_of_mem _ he')) hnodup
    exact ⟨parts₂, hown.append hothers⟩

end Back

section Whole
variable {cfg : Config}

theorem quoteless_types (hnames : ∀ name ∈ cfg.names, '"' ∉ name) : ∀ e ∈ cfg.typeOverrides, '"' ∉ e.1 :=
  fun e he => hnames e.1 (List.mem_append_left _ (List.mem_map_of_mem he))

theorem quoteless_table (hnames : ∀ name ∈ cfg.names, '"' ∉ name) {e : Text × TableEntry}
    (he : e ∈ cfg.tables) : '"' ∉ e.1 :=
  hnames e.1 (List.mem_append_right _ (List.mem_flatMap.mpr ⟨e, he, List.mem_cons_self⟩))

theorem quoteless_column (hnames : ∀ name ∈ cfg.names, '"' ∉ name) {e : Text × TableEntry}
    (he : e ∈ cfg.tables) {c : Text × ColumnOverride} (hc : c ∈ e.2.columns) : '"' ∉ c.1 :=
  hnames c.1 (List.mem_append_right _
    (List.mem_flatMap.mpr ⟨e, he, List.mem_cons_of_mem _ (List.mem_map_of_mem hc)⟩))

theorem plain_settingLines {key : Text} {value : Option Text} (hkey : '"' ∉ key) (hnewline : '\n' ∉ key)
    (h : ∀ v ∈ value, Quotable v) : ∀ l ∈ settingLines key value, PlainLine l := by
  intro l hl
  obtain ⟨v, hv, rfl⟩ := List.mem_map.mp hl
  exact (h v (Option.mem_toList.mp hv)).plain_keyLine hkey hnewline

theorem plain_columnLines {table : Text} {e : Text × ColumnOverride} (hquote : '"' ∉ table)
    (hnewline : '\n' ∉ table) (he : WritableColumn e) (hequote : '"' ∉ e.1) :
    ∀ l ∈ columnLines table e, PlainLine l := by
  intro l hl
  rcases List.mem_cons.mp hl with rfl | hl
  · exact plain_columnHeader hquote hnewline hequote he.name.newline
  · rcases List.mem_append.mp hl with hl | hl
    · exact plain_settingLines (by decide) (by decide) he.cppType l hl
    · exact plain_settingLines (by decide) (by decide) he.converter l hl

theorem plain_tableLines {e : Text × TableEntry} (he : WritableTable e) (hquote : '"' ∉ e.1)
    (hcolumns : ∀ c ∈ e.2.columns, '"' ∉ c.1) : ∀ l ∈ tableLines e, PlainLine l := by
  intro l hl
  rcases List.mem_cons.mp hl with rfl | hl
  · exact plain_tableHeader hquote he.name.newline
  · rcases List.mem_cons.mp hl with rfl | hl
    · have hword : ∀ b, '\n' ∉ boolText b ∧ Kept false (boolText b) ∧ boolText b ≠ [] ∧
          (boolText b).getLast?.any isSpace = false := by
        intro b
        cases b <;> decide
      obtain ⟨hnewline, hkept, hne, hlast⟩ := hword e.2.skip
      exact plain_keyLine (by decide) (by decide) hnewline hkept hne hlast
    · rcases List.mem_append.mp hl with hl | hl
      · exact plain_settingLines (by decide) (by decide) he.className l hl
      · obtain ⟨c, hc, hl⟩ := List.mem_flatMap.mp hl
        exact plain_columnLines hquote he.name.newline (he.columns c hc) (hcolumns c hc) l hl

theorem plain_configLines (h : Writable cfg) (hnames : ∀ name ∈ cfg.names, '"' ∉ name) :
    ∀ l ∈ configLines cfg, PlainLine l := by
  intro l hl
  rcases List.mem_cons.mp hl with rfl | hl
  · exact ⟨by decide, by decide, by decide, by decide⟩
  · rcases List.mem_append.mp hl with hl | hl
    · obtain ⟨e, he, rfl⟩ := List.mem_map.mp hl
      have hquote := quoteless_types hnames e he
      exact ((h.types e he).value hquote).plain_keyLine hquote (h.types e he).newline
    · obtain ⟨e, he, hl⟩ := List.mem_flatMap.mp hl
      exact plain_tableLines (h.tables e he) (quoteless_table hnames he)
        (fun c hc => quoteless_column hnames he hc) l hl

/-- A config whose names have no quote is read back from its text. -/
theorem parseConfig_configText (h : Writable cfg) (hnames : ∀ name ∈ cfg.names, '"' ∉ name) :
    parseConfig (configText cfg) = .ok cfg := by
  have htypes : Steps ({}, ["types".toList]) (cfg.typeOverrides.map fun e => keyLine e.1 (quoted e.2))
      (⟨[] ++ cfg.typeOverrides, []⟩, ["types".toList]) :=
    steps_types h.distinctTypes h.types (quoteless_types hnames)
  obtain ⟨parts, htables⟩ : ∃ parts, Steps (⟨cfg.typeOverrides, []⟩, ["types".toList])
      (cfg.tables.flatMap tableLines) (⟨cfg.typeOverrides, [] ++ cfg.tables⟩, parts) :=
    steps_tables h.tables (fun e he => quoteless_table hnames he)
      (fun e he c hc => quoteless_column hnames he hc) h.distinct
  have hall : Steps ({}, []) (configLines cfg) (cfg, parts) :=
    Steps.cons (fun n => step_typesHeader n) (htypes.append htables)
  have hne : configLines cfg ≠ [] := List.cons_ne_nil _ _
  rw [parseConfig, configText, numberedLines_join hne (plain_configLines h hnames), hall]
  rfl

end Whole

end Uniorm.Gen
