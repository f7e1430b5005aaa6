import Mathlib.Data.List.Forall2
import Uniorm.Ddl.WrittenColumn

/-! # The text of a table

An item of a table is a column, whose text begins with a quote, or a constraint,
whose text begins with one of its words. Each is read as the edits it was
written for, so the list of them is, and so is the statement around it.
-/
namespace Uniorm.Ddl

open Foundation Foundation.Scan Sql Builder Schema

section Leads
variable {s : Text}

theorem read_anyOf_words {word : Text} {words : List Text} {probe : Text → Reading Bool}
    (h : ∀ w ∈ words, (probe w).read s = some (decide (word = w), s)) (more : List (Reading Bool)) :
    (anyOf (words.map probe ++ more)).read s =
      if word ∈ words then some (true, s) else (anyOf more).read s := by
  induction words with
  | nil => rfl
  | cons w words ih =>
    obtain ⟨hw, hmore⟩ := List.forall_mem_cons.mp h
    rw [List.map_cons, List.cons_append, anyOf, read_bind, hw, Option.bind_some]
    by_cases heq : word = w
    · subst heq
      rw [decide_eq_true rfl, if_pos rfl, read_pure, if_pos List.mem_cons_self]
    · have hmem : word ∈ w :: words ↔ word ∈ words := by simp [heq]
      rw [decide_eq_false heq, if_neg Bool.false_ne_true, ih hmore]
      simp only [hmem]

/-- Whether a constraint stands next, where a list stands behind the words that need one. -/
theorem Settled.read_constraintLead [Dangling] (hsettled : Settled s)
    (hopens : ∀ lead ∈ keyWords, foldLower (wordOf s) = lead.toList →
      ∃ rest, (opensListWithin 3).read (s.drop lead.toList.length) = some (true, rest)) :
    constraintLead.read s =
      some (decide (foldLower (wordOf s) ∈ constraintLeads ++ keyWords.map String.toList), s) := by
  have hfirst : ∀ w ∈ constraintLeads,
      (peekKeyword w).read s = some (decide (foldLower (wordOf s) = w), s) := by
    intro w hw
    obtain ⟨hword, hlower⟩ := word_probes w (List.mem_append_left _ hw)
    rw [hsettled.read_peekKeyword hword, hlower, beq_eq_decide]
  have hsecond : ∀ w ∈ keyWords.map String.toList,
      (opensAKeyList w).read s = some (decide (foldLower (wordOf s) = w), s) := by
    intro w hw
    obtain ⟨lead, hlead, rfl⟩ := List.mem_map.mp hw
    obtain ⟨hword, hlower⟩ := word_keyWord hlead
    by_cases hfold : foldLower (wordOf s) = lead.toList
    · obtain ⟨rest, hrest⟩ := hopens lead hlead hfold
      rw [hsettled.read_opensAKeyList_this hword (hfold.trans hlower.symm), hrest,
        decide_eq_true hfold]
      rfl
    · rw [hsettled.read_opensAKeyList_other hword (hlower.symm ▸ hfold), decide_eq_false hfold]
  have hlead : constraintLead = anyOf (constraintLeads.map peekKeyword ++
      ((keyWords.map String.toList).map opensAKeyList ++ [])) := rfl
  rw [hlead, read_anyOf_words hfirst, read_anyOf_words hsecond]
  by_cases hmem : foldLower (wordOf s) ∈ constraintLeads
  · rw [if_pos hmem, decide_eq_true (List.mem_append_left _ hmem)]
  · rw [if_neg hmem]
    by_cases hmem' : foldLower (wordOf s) ∈ keyWords.map String.toList
    · rw [if_pos hmem', decide_eq_true (List.mem_append_right _ hmem')]
    · rw [if_neg hmem', decide_eq_false fun h => (List.mem_append.mp h).elim hmem hmem']
      rfl

/-- No constraint begins with a quoted name. -/
theorem Reads.tableItem [Dangling] {text : Text} {edits : List Edit} (h : Reads readColumnDef text edits)
    (hname : text.head? = some '"') (table : Text) : Reads (readTableItem table) text edits where
  starts := h.starts
  read {rest} hrest := by
    have hsettled := h.starts.settled rest
    have hword : wordOf (text ++ rest) = [] := by
      obtain ⟨c, cs, rfl, -⟩ := h.starts
      obtain rfl := Option.some.inj hname
      rfl
    have hlead : constraintLead.read (text ++ rest) = some (false, text ++ rest) := by
      rw [hsettled.read_constraintLead, hword]
      · rfl
      · intro lead hlead hnil
        rw [hword] at hnil
        simp only [keyWords, List.mem_cons, List.not_mem_nil, or_false] at hlead
        rcases hlead with rfl | rfl | rfl <;> cases hnil
    have hnone : (eatKeyword "constraint".toList).read (text ++ rest) =
      some (false, text ++ rest) := by
      rw [hsettled.read_eatKeyword ⟨rfl, rfl⟩, hword]
      rfl
    rw [readTableItem, read_bind, hnone, Option.bind_some, if_neg Bool.false_ne_true, read_bind,
      hlead,
      Option.bind_some, if_neg Bool.false_ne_true, h.read hrest]

theorem read_tableItem_constraint [Dangling] {table : Text} {word : String} (hword : Word word.toList)
    (hlower : foldLower word.toList = word.toList)
    (hmem : word.toList ∈ constraintLeads ++ keyWords.map String.toList) {text : Text}
    (hends : EndsWord text)
    (hopens : word ∈ keyWords → ∃ rest, (opensListWithin 3).read text = some (true, rest)) :
    (readTableItem table).read (word.toList ++ text) =
      (readConstraint table).read (word.toList ++ text) := by
  have hsettled := hword.settled hends
  have hof := wordOf_append hword hends
  have hlead : constraintLead.read (word.toList ++ text) = some (true, word.toList ++ text) := by
    rw [hsettled.read_constraintLead, hof, hlower, decide_eq_true hmem]
    intro lead hlead heq
    rw [hof, hlower] at heq
    obtain rfl := String.toList_injective heq
    rw [List.drop_left]
    exact hopens hlead
  have hnone : (eatKeyword "constraint".toList).read (word.toList ++ text) =
      some (false, word.toList ++ text) := by
    rw [hword.read_eatKeyword hends ⟨rfl, rfl⟩, hlower, if_neg]
    intro heq
    rw [heq] at hmem
    revert hmem
    decide
  rw [readTableItem, read_bind, hnone, Option.bind_some, if_neg Bool.false_ne_true, read_bind,
    hlead,
    Option.bind_some, if_pos rfl]

end Leads

def primaryText (names : List Text) : Text := "primary key ".toList ++ namesText names

def indexText (row : IndexRow) : Text :=
  (if row.unique then "unique".toList else "index".toList) ++
    ' ' :: (delimited .double row.name ++ ' ' :: namesText row.columns)

def foreignText (row : ForeignKeyRow) : Text :=
  "foreign key ".toList ++ (namesText [row.column] ++
    (" references ".toList ++ (delimited .double row.referencedTable ++ ' ' :: namesText
    [row.referencedColumn])))

section Constraints
variable {table rest : Text}

theorem settled_namesText (names : List Text) (text : Text) : Settled (namesText names ++ text) :=
  settled_parenthesis _

theorem skipsFirst_nameList [Dangling] : SkipsFirst nameList := (skipsFirst_eat '(').bind _ |>.bind _

theorem skipsFirst_indexColumns [Dangling] : SkipsFirst indexColumns :=
  (skipsFirst_eat '(').bind _ |>.bind _

theorem read_space_nameList [Dangling] (names : List Text) (text : Text) :
    nameList.read (' ' :: (namesText names ++ text)) = some (names, text) := by
  rw [skipsFirst_nameList.read_space (settled_namesText names text), read_nameList]

theorem read_space_keyword {word : Text} (hword : Word word) {text : Text} (hends : EndsWord text) :
    (eatKeyword word).read (' ' :: (word ++ text)) = some (true, text) := by
  rw [(skipsFirst_eatKeyword word).read_space (hword.settled hends),
    hword.read_eatKeyword hends hword,
    if_pos rfl]

theorem read_space_expectKeyword [Dangling] {word : Text} (hword : Word word) {text : Text}
    (hends : EndsWord text) :
    (expectKeyword word).read (' ' :: (word ++ text)) = some ((), text) := by
  rw [expectKeyword, read_bind, read_space_keyword hword hends]
  rfl

theorem isWord_key : Word "key".toList := ⟨rfl, rfl⟩

theorem isWord_foreign : Word "foreign".toList := ⟨rfl, rfl⟩

theorem isWord_unique : Word "unique".toList := ⟨rfl, rfl⟩

theorem isWord_index : Word "index".toList := ⟨rfl, rfl⟩

theorem isWord_references : Word "references".toList := ⟨rfl, rfl⟩

theorem reads_primaryText [Dangling] (names : List Text) :
    Reads (readTableItem table) (primaryText names) (names.map .key) where
  starts := ⟨_, _, rfl, .inr rfl⟩
  read {rest} hrest := by
    have htext : primaryText names ++ rest =
        "primary".toList ++ (' ' :: ("key".toList ++ (' ' :: (namesText names ++ rest)))) := rfl
    have hends : EndsWord (' ' :: ("key".toList ++ (' ' :: (namesText names ++ rest)))) := rfl
    have hbehind : EndsWord (' ' :: (namesText names ++ rest)) := rfl
    have hitem := @read_tableItem_constraint _ table "primary" word_primary rfl
      (by decide) _ hends fun hkey => absurd hkey (by decide)
    have hprimary := word_primary.read_eatKeyword hends word_primary
    rw [if_pos rfl] at hprimary
    have hkey := read_space_expectKeyword isWord_key hbehind
    rw [htext, hitem, readConstraint, read_bind, hprimary, Option.bind_some, if_pos rfl, read_bind,
      hkey,
      Option.bind_some, read_bind, read_space_nameList, Option.bind_some, read_bind,
      hrest.read_skipItem]
    rfl

theorem skip_space {text : Text} (h : Settled text) :
    skipBlanks.read (' ' :: text) = some ((), text) := by
  rw [read_skipBlanks_space rfl, h.read_skipBlanks]

theorem settled_delimited (name text : Text) : Settled (delimited .double name ++ text) :=
  settled_of_quoteStart rfl _

theorem read_space_delimited [Dangling] (name text : Text) :
    identifier.read (' ' :: (delimited .double name ++ ' ' :: text)) = some (name, ' ' :: text) := by
  rw [skipsFirst_identifier.read_space (settled_delimited _ _)]
  exact read_identifier_quoted name (show (some ' ' : Option Char) ≠ some '"' by decide)

theorem Word.read_eatKeyword_other {w : Text} (hw : Word w) {text : Text} (hends : EndsWord text)
    {word : Text} (hword : Word word) (h : foldLower w ≠ foldLower word) :
    (eatKeyword word).read (w ++ text) = some (false, w ++ text) := by
  rw [hw.read_eatKeyword hends hword, if_neg h]

theorem Word.read_eatKeyword_this {w : Text} (hw : Word w) {text : Text} (hends : EndsWord text) :
    (eatKeyword w).read (w ++ text) = some (true, text) := by
  rw [hw.read_eatKeyword hends hw, if_pos rfl]

theorem read_readIndex [Dangling] {text : Text} {row : IndexRow} (hrow : row.name ≠ [])
    (hrest : Closes rest)
    (hskip : skipBlanks.read text =
      some ((), delimited .double row.name ++ ' ' :: (namesText row.columns ++ rest))) (fallback : Text) :
    (readIndex fallback row.unique).read text = some ([.index row], rest) := by
  have hpeek := read_peekIs_of_skip hskip '('
  have hname : identifier.read (delimited .double row.name ++ ' ' :: (namesText row.columns ++ rest)) =
      some (row.name, ' ' :: (namesText row.columns ++ rest)) :=
    read_identifier_quoted row.name (show (some ' ' : Option Char) ≠ some '"' by decide)
  have hcolumns : indexColumns.read (' ' :: (namesText row.columns ++ rest)) =
      some (row.columns, rest) := by
    rw [skipsFirst_indexColumns.read_space (settled_namesText _ rest), read_indexColumns]
  have hnamed : indexName row.name row.columns fallback = row.name := if_pos hrow
  have hlisted : ((delimited .double row.name ++ ' ' :: (namesText row.columns ++ rest)).head? ==
    some '(') =
      false := rfl
  rw [hlisted] at hpeek
  rw [readIndex, read_bind, hpeek, Option.bind_some, if_neg Bool.false_ne_true, read_bind, hname,
    Option.bind_some, read_bind, hcolumns, Option.bind_some, read_bind, hrest.read_skipItem,
    Option.bind_some, hnamed]
  rfl

theorem opens_index [Dangling] (name : Text) (names : List Text) (text : Text) :
    ∃ left, (opensListWithin 3).read (' ' :: (delimited .double name ++ ' ' :: (namesText names ++ text))) =
      some (true, left) := by
  have hname := read_space_delimited name (namesText names ++ text)
  have hopens : Opens (' ' :: (namesText names ++ text)) := ⟨_, skip_space (settled_namesText _ _)⟩
  exact (OpensBehind.name (read_name_of_identifier hname) (.here hopens)).read_true (by decide)

theorem reads_indexText [Dangling] {row : IndexRow} (hrow : row.name ≠ []) :
    Reads (readTableItem table) (indexText row) [.index row] where
  starts := by
    cases hunique : row.unique with
    | true => exact ⟨'u', _, by rw [indexText, hunique]; rfl, .inr rfl⟩
    | false => exact ⟨'i', _, by rw [indexText, hunique]; rfl, .inr rfl⟩
  read {rest} hrest := by
    have htext : indexText row ++ rest = (if row.unique then "unique".toList else "index".toList) ++
        (' ' :: (delimited .double row.name ++ ' ' :: (namesText row.columns ++ rest))) := by
      simp only [indexText, List.append_assoc, List.cons_append]
    have hends : EndsWord (' ' :: (delimited .double row.name ++ ' ' :: (namesText row.columns ++ rest))) :=
      rfl
    have hquoted := settled_delimited row.name (' ' :: (namesText row.columns ++ rest))
    have hopens := opens_index row.name row.columns rest
    have hskip := skip_space hquoted
    rw [htext]
    cases hunique : row.unique with
    | true =>
      have hwords : (eatKeywords (["key", "index", "nulls", "not", "distinct"].map
        String.toList)).read
          (' ' :: (delimited .double row.name ++ ' ' :: (namesText row.columns ++ rest))) =
            some ((), delimited .double row.name ++ ' ' :: (namesText row.columns ++ rest)) := by
        refine read_eatKeywords_none hskip (by decide) fun w hw => ?_
        have hall : ∀ w ∈ ["key", "index", "nulls", "not", "distinct"].map String.toList,
            Word w ∧ [] ≠ foldLower w := by
          simp only [List.map_cons, List.map_nil, List.forall_mem_cons]
          exact ⟨⟨⟨rfl, rfl⟩, by decide⟩, ⟨⟨rfl, rfl⟩, by decide⟩, ⟨⟨rfl, rfl⟩, by decide⟩,
            ⟨⟨rfl, rfl⟩, by decide⟩, ⟨⟨rfl, rfl⟩, by decide⟩, fun _ h => absurd h List.not_mem_nil⟩
        exact hall w hw
      have hindex := read_readIndex hrow hrest hquoted.read_skipBlanks "unique".toList
      rw [hunique] at hindex
      rw [if_pos rfl, read_tableItem_constraint isWord_unique rfl (by decide) hends fun _ => hopens,
        readConstraint, read_bind, isWord_unique.read_eatKeyword_other hends word_primary
        (by decide),
        Option.bind_some, if_neg Bool.false_ne_true, read_bind,
        isWord_unique.read_eatKeyword_this hends,
        Option.bind_some, if_pos rfl, read_bind, hwords, Option.bind_some, hindex]
    | false =>
      have hkey : (eatOneOf (["key", "index"].map String.toList)).read ("index".toList ++
          (' ' :: (delimited .double row.name ++ ' ' :: (namesText row.columns ++ rest)))) =
            some (true, ' ' :: (delimited .double row.name ++ ' ' :: (namesText row.columns ++ rest))) := by
        rw [List.map_cons, eatOneOf, read_bind, isWord_index.read_eatKeyword_other hends isWord_key
          (by decide),
          Option.bind_some, if_neg Bool.false_ne_true, List.map_cons, eatOneOf, read_bind,
          isWord_index.read_eatKeyword_this hends]
        rfl
      have hindex := read_readIndex hrow hrest hskip "index".toList
      rw [hunique] at hindex
      rw [if_neg Bool.false_ne_true, read_tableItem_constraint isWord_index rfl (by decide) hends
          fun _ => hopens,
        readConstraint, read_bind, isWord_index.read_eatKeyword_other hends word_primary
        (by decide),
        Option.bind_some, if_neg Bool.false_ne_true, read_bind,
        isWord_index.read_eatKeyword_other hends isWord_unique (by decide), Option.bind_some,
        if_neg Bool.false_ne_true, read_bind, hkey, Option.bind_some, if_pos rfl, hindex]

theorem read_readReferences [Dangling] (row : ForeignKeyRow) (hrest : Closes rest) :
    (readReferences [row.column]).read (" references ".toList ++
      (delimited .double row.referencedTable ++ ' ' :: (namesText [row.referencedColumn] ++ rest))) =
        some ([.foreignKey row], rest) := by
  have htext : " references ".toList ++ (delimited .double row.referencedTable ++
      ' ' :: (namesText [row.referencedColumn] ++ rest)) = ' ' :: ("references".toList ++
        ' ' :: (delimited .double row.referencedTable ++ ' ' ::
        (namesText [row.referencedColumn] ++ rest))) := rfl
  have hends : EndsWord (' ' :: (delimited .double row.referencedTable ++
      ' ' :: (namesText [row.referencedColumn] ++ rest))) := rfl
  have hlist := settled_namesText [row.referencedColumn] rest
  have hname := read_space_delimited row.referencedTable (namesText [row.referencedColumn] ++ rest)
  have htable := read_tableName_one hname
    (settled_space_eat hlist (show (some '(' : Option Char) ≠ some '.' by decide))
  have hlisted := read_peekIs_of_skip hlist.read_skipBlanks '('
  have htrue : ((namesText [row.referencedColumn] ++ rest).head? == some '(') = true := rfl
  rw [htrue] at hlisted
  have hcolumns : ¬ [row.referencedColumn] = [] := List.cons_ne_nil _ _
  have hlength : ¬ [row.referencedColumn].length ≠ [row.column].length := fun h => h rfl
  rw [htext, readReferences, read_bind, read_space_keyword isWord_references hends,
    Option.bind_some,
    read_bind, htable, Option.bind_some, read_bind, hlisted, Option.bind_some, if_pos rfl]
  simp only [read_bind, read_nameList, Option.bind_some, if_neg hcolumns, if_neg hlength,
    hrest.read_skipItem]
  rfl

theorem reads_foreignText [Dangling] (row : ForeignKeyRow) :
    Reads (readTableItem table) (foreignText row) [.foreignKey row] where
  starts := ⟨_, _, rfl, .inr rfl⟩
  read {rest} hrest := by
    have htext : foreignText row ++ rest = "foreign".toList ++ (' ' :: ("key".toList ++
        (' ' :: (namesText [row.column] ++ (" references ".toList ++
          (delimited .double row.referencedTable ++ ' ' :: (namesText [row.referencedColumn] ++ rest)))))))
          := by
      have happend : " references ".toList ++ (delimited .double row.referencedTable ++
          ' ' :: (namesText [row.referencedColumn] ++ rest)) = (" references ".toList ++
            (delimited .double row.referencedTable ++ ' ' :: namesText [row.referencedColumn])) ++
              rest := by
        simp only [List.append_assoc, List.cons_append]
      rw [happend, ← List.append_assoc (namesText [row.column])]
      rfl
    have hends : EndsWord (' ' :: ("key".toList ++
        (' ' :: (namesText [row.column] ++ (" references ".toList ++
          (delimited .double row.referencedTable ++ ' ' :: (namesText [row.referencedColumn] ++ rest)))))))
          := rfl
    have hbehind : EndsWord (' ' :: (namesText [row.column] ++ (" references ".toList ++
        (delimited .double row.referencedTable ++ ' ' :: (namesText [row.referencedColumn] ++ rest))))) :=
        rfl
    have hnone : (eatOneOf (["key", "index"].map String.toList)).read ("foreign".toList ++
        (' ' :: ("key".toList ++ (' ' :: (namesText [row.column] ++ (" references ".toList ++
          (delimited .double row.referencedTable ++ ' ' :: (namesText [row.referencedColumn] ++ rest))))))))
          =
        some (false, "foreign".toList ++
        (' ' :: ("key".toList ++ (' ' :: (namesText [row.column] ++ (" references ".toList ++
          (delimited .double row.referencedTable ++ ' ' :: (namesText [row.referencedColumn] ++ rest))))))))
          := by
      rw [List.map_cons, eatOneOf, read_bind, isWord_foreign.read_eatKeyword_other hends isWord_key
        (by decide),
        Option.bind_some, if_neg Bool.false_ne_true, List.map_cons, eatOneOf, read_bind,
        isWord_foreign.read_eatKeyword_other hends isWord_index (by decide)]
      rfl
    have hlisted := read_peekIs_of_skip (skip_space (settled_namesText [row.column]
      (" references ".toList ++ (delimited .double row.referencedTable ++
        ' ' :: (namesText [row.referencedColumn] ++ rest))))) '('
    have htrue : ((namesText [row.column] ++ (" references ".toList ++
      (delimited .double row.referencedTable ++
      ' ' :: (namesText [row.referencedColumn] ++ rest)))).head? == some '(') = true := rfl
    rw [htrue] at hlisted
    rw [htext, @read_tableItem_constraint _ _ "foreign" isWord_foreign rfl (by decide) _ hends
        fun hkey => absurd hkey (by decide),
      readConstraint, read_bind, isWord_foreign.read_eatKeyword_other hends word_primary
      (by decide),
      Option.bind_some, if_neg Bool.false_ne_true, read_bind,
      isWord_foreign.read_eatKeyword_other hends isWord_unique (by decide), Option.bind_some,
      if_neg Bool.false_ne_true, read_bind, hnone, Option.bind_some, if_neg Bool.false_ne_true,
      read_bind,
      isWord_foreign.read_eatKeyword_this hends, Option.bind_some, if_pos rfl, read_bind,
      read_space_expectKeyword isWord_key hbehind, Option.bind_some, readKeyColumnsThenReferences,
      read_bind,
      hlisted, Option.bind_some, if_pos rfl, read_bind, read_nameList, Option.bind_some,
      read_readReferences row hrest]

end Constraints

def items (table : DdlTable) : List (Text × List Edit) :=
  table.columns.map (fun row => (columnText row, [.column row])) ++
    ((if table.primaryKey = [] then [] else [(primaryText table.primaryKey,
    table.primaryKey.map .key)]) ++
      (table.indexes.map (fun row => (indexText row, [.index row])) ++
        table.foreignKeys.map fun row => (foreignText row, [.foreignKey row])))

def edits (table : DdlTable) : List Edit :=
  table.columns.map .column ++ (table.primaryKey.map .key ++ (table.indexes.map .index ++
    table.foreignKeys.map .foreignKey))

/-- The name of a table with its schema and catalog, where it has them. -/
def parts (ref : TableRef) : List Text :=
  if ref.catalog ≠ [] then [ref.catalog, ref.schema, ref.name]
  else if ref.schema ≠ [] then [ref.schema, ref.name]
  else [ref.name]

def tableText (table : DdlTable) : Text :=
  "create table ".toList ++ (nameText (parts table.ref) ++
    (" (".toList ++ (keyText ((items table).map Prod.fst) ++ ";\n".toList)))

/-- A table that its text says all of. -/
structure WritableTable [Dangling] (table : DdlTable) : Prop where
  columns : ∀ row ∈ table.columns, WritableColumn row
  nullable : ∀ row ∈ table.columns, ∀ name ∈ table.primaryKey,
    foldLower row.shape.name = foldLower name → row.shape.nullable = false
  distinct : table.primaryKey.Nodup
  indexes : ∀ row ∈ table.indexes, row.name ≠ []

theorem freshTable_parts (ref : TableRef) : freshTable (parts ref) = ⟨ref, [], [], [], []⟩ := by
  rw [parts]
  split_ifs with hcatalog hschema
  · rfl
  · obtain ⟨catalog, schema, name⟩ := ref
    obtain rfl : catalog = [] := not_not.mp hcatalog
    rfl
  · obtain ⟨catalog, schema, name⟩ := ref
    obtain rfl : catalog = [] := not_not.mp hcatalog
    obtain rfl : schema = [] := not_not.mp hschema
    rfl

theorem parts_cases (ref : TableRef) : ∃ part more, parts ref = part :: more ∧ more.length ≤ 2 := by
  rw [parts]
  split_ifs
  · exact ⟨_, _, rfl, le_rfl⟩
  · exact ⟨_, _, rfl, Nat.le_succ 1⟩
  · exact ⟨_, _, rfl, Nat.zero_le 2⟩

section Tables
variable {table : DdlTable} {rest : Text}

theorem items_edits (table : DdlTable) : (items table).flatMap Prod.snd = edits table := by
  have hkey : (if table.primaryKey = [] then [] else
      [(primaryText table.primaryKey, table.primaryKey.map Edit.key)]).flatMap Prod.snd =
        table.primaryKey.map .key := by
    split_ifs with hnil
    · rw [hnil]
      rfl
    · exact List.flatMap_singleton ..
  simp only [items, edits, List.flatMap_append, hkey, List.flatMap_map]
  simp only [List.map_eq_flatMap]

theorem WritableTable.reads_item [Dangling] (h : WritableTable table) (name : Text) :
    ∀ item ∈ items table, Reads (readTableItem name) item.1 item.2 := by
  intro item hitem
  simp only [items, List.mem_append, List.mem_map] at hitem
  rcases hitem with ⟨row, hrow, rfl⟩ | hkey | ⟨row, hrow, rfl⟩ | ⟨row, hrow, rfl⟩
  · exact (reads_columnText (h.columns row hrow)).tableItem rfl name
  · split_ifs at hkey with hnil
    · cases hkey
    · obtain rfl := List.mem_singleton.mp hkey
      exact reads_primaryText _
  · exact reads_indexText (h.indexes row hrow)
  · exact reads_foreignText row

theorem forall₂_reads {item : Reading (List Edit)} {its : List (Text × List Edit)}
    (h : ∀ i ∈ its, Reads item i.1 i.2) :
    List.Forall₂ (Reads item) (its.map Prod.fst) (its.map Prod.snd) := by
  rw [List.forall₂_map_left_iff, List.forall₂_map_right_iff, List.forall₂_same]
  exact h

theorem WritableTable.read_items [Dangling] (h : WritableTable table) (name : Text) :
    (loop (itemStep name) []).read (keyText ((items table).map Prod.fst) ++ rest) =
      some (edits table, rest) := by
  have hlist := read_list (fun s text => show (itemStep name s).read text = _ from rfl)
    (forall₂_reads (h.reads_item name)) [] rest
  rw [hlist, ← items_edits, List.flatMap_def, List.foldl_map, List.foldl_append_eq_append,
    List.nil_append]

/-- A name that begins with a quote has none of the words that may stand in front of it. -/
theorem read_eatKeywords_name {words : List Text} (hwords : ∀ w ∈ words, Word w) (hne : words ≠ [])
    (name text : Text) : (eatKeywords words).read (' ' :: (delimited .double name ++ text)) =
      some ((), delimited .double name ++ text) := by
  refine read_eatKeywords_none (skip_space (settled_delimited _ _)) hne fun w hw =>
    ⟨hwords w hw, ?_⟩
  have hnil : wordOf (delimited .double name ++ text) = [] := rfl
  rw [hnil]
  intro heq
  have hlength := congrArg List.length heq
  rw [foldLower_length] at hlength
  obtain ⟨c, cs, rfl, -⟩ := (hwords w hw).eq_cons
  cases hlength

/-- Everything between the parentheses, and the end of the statement. -/
theorem WritableTable.read_readTableItems [Dangling] (h : WritableTable table) (name : Text) :
    (readTableItems name).read
      ('(' :: (keyText ((items table).map Prod.fst) ++ (";\n".toList ++ rest))) =
        some (edits table ++ [.applyKeys], '\n' :: rest) := by
  have hsettled := settled_parenthesis
    (keyText ((items table).map Prod.fst) ++ (";\n".toList ++ rest))
  have hlike : (eatKeyword "like".toList).read
      ('(' :: (keyText ((items table).map Prod.fst) ++ (";\n".toList ++ rest))) =
        some (false, '(' :: (keyText ((items table).map Prod.fst) ++ (";\n".toList ++ rest))) := by
    rw [hsettled.read_eatKeyword ⟨rfl, rfl⟩]
    rfl
  have hopen : (expect '(').read
      ('(' :: (keyText ((items table).map Prod.fst) ++ (";\n".toList ++ rest))) =
        some ((), keyText ((items table).map Prod.fst) ++ (";\n".toList ++ rest)) :=
    hsettled.read_expect rfl
  have hends : EndsStatement (";\n".toList ++ rest) := .inr ⟨_, rfl⟩
  rw [readTableItems_eq, read_bind, hlike, Option.bind_some, if_neg Bool.false_ne_true, read_bind,
    hopen, Option.bind_some, read_bind, h.read_items, Option.bind_some, read_bind,
    read_statementEnd hends]
  rfl

theorem WritableTable.read_readCreateTable [Dangling] (h : WritableTable table) :
    readCreateTable.read (' ' :: (nameText (parts table.ref) ++
      (" (".toList ++ (keyText ((items table).map Prod.fst) ++ (";\n".toList ++ rest))))) =
        some (.createTable (parts table.ref) (edits table ++ [.applyKeys]), '\n' :: rest) := by
  have hsettled := settled_parenthesis
    (keyText ((items table).map Prod.fst) ++ (";\n".toList ++ rest))
  have hdot : (eat '.').read
      (" (".toList ++ (keyText ((items table).map Prod.fst) ++ (";\n".toList ++ rest))) =
        some (false, '(' :: (keyText ((items table).map Prod.fst) ++ (";\n".toList ++ rest))) :=
    settled_space_eat hsettled (show (some '(' : Option Char) ≠ some '.' by decide)
  have hhead : (" (".toList ++
      (keyText ((items table).map Prod.fst) ++ (";\n".toList ++ rest))).head? ≠ some '"' :=
    show (some ' ' : Option Char) ≠ some '"' by decide
  have hitems := @WritableTable.read_readTableItems _ rest _ h (freshTable (parts table.ref)).ref.name
  have hwords : ∀ w ∈ ifNotExists, Word w := by
    simp only [ifNotExists, List.map_cons, List.map_nil, List.forall_mem_cons]
    exact ⟨⟨rfl, rfl⟩, ⟨rfl, rfl⟩, ⟨rfl, rfl⟩, fun _ h => absurd h List.not_mem_nil⟩
  obtain ⟨part, more, hparts, hlength⟩ := parts_cases table.ref
  rw [hparts] at hitems ⊢
  have hname := @read_qualified _ part more _ _ hdot hhead
  have hshort : ¬ 3 < (part :: more).length := by
    rw [List.length_cons]
    omega
  have htable : tableName.read (nameText (part :: more) ++
      (" (".toList ++ (keyText ((items table).map Prod.fst) ++ (";\n".toList ++ rest)))) =
        some (part :: more, '(' :: (keyText ((items table).map Prod.fst) ++
        (";\n".toList ++ rest))) := by
    rw [tableName, read_bind, hname, Option.bind_some, if_neg hshort, read_pure]
  have hnone := read_eatKeywords_name hwords (List.cons_ne_nil _ _) part
    ((more.flatMap fun part => '.' :: delimited .double part) ++
      (" (".toList ++ (keyText ((items table).map Prod.fst) ++ (";\n".toList ++ rest))))
  rw [← List.append_assoc (delimited .double part), ← nameText] at hnone
  rw [readCreateTable, read_bind, hnone, Option.bind_some, read_bind, htable, Option.bind_some,
    read_bind, hitems]
  rfl

theorem append_statement (a b c d e text : Text) :
    a ++ (b ++ (c ++ (d ++ e))) ++ text = a ++ (b ++ (c ++ (d ++ (e ++ text)))) := by
  simp only [List.append_assoc]

theorem create_table_append (text : Text) : "create table ".toList ++ text =
    "create".toList ++ (' ' :: ("table".toList ++ (' ' :: text))) := rfl

theorem WritableTable.read_tableText [Dangling] (h : WritableTable table)
    (tables : List Text → Option Text) :
    (readStatement tables).read (tableText table ++ rest) =
      some (.createTable (parts table.ref) (edits table ++ [.applyKeys]), '\n' :: rest) := by
  have htext : tableText table ++ rest = "create".toList ++ (' ' :: ("table".toList ++
      (' ' :: (nameText (parts table.ref) ++ (" (".toList ++
        (keyText ((items table).map Prod.fst) ++ (";\n".toList ++ rest))))))) :=
    (append_statement _ _ _ _ _ _).trans (create_table_append _)
  have htable : Word "table".toList := ⟨rfl, rfl⟩
  have hends : EndsWord (' ' :: (nameText (parts table.ref) ++ (" (".toList ++
      (keyText ((items table).map Prod.fst) ++ (";\n".toList ++ rest))))) := rfl
  have hbehind : EndsWord (' ' :: ("table".toList ++ (' ' :: (nameText (parts table.ref) ++
      (" (".toList ++ (keyText ((items table).map Prod.fst) ++ (";\n".toList ++ rest))))))) := rfl
  have hnone : (eatKeywords creationWords).read (' ' :: ("table".toList ++
      (' ' :: (nameText (parts table.ref) ++ (" (".toList ++
        (keyText ((items table).map Prod.fst) ++ (";\n".toList ++ rest))))))) =
      some ((), "table".toList ++ (' ' :: (nameText (parts table.ref) ++ (" (".toList ++
        (keyText ((items table).map Prod.fst) ++ (";\n".toList ++ rest)))))) := by
    refine read_eatKeywords_none (skip_space (htable.settled hends)) (by decide) fun w hw => ?_
    have hwords : ∀ w ∈ creationWords, foldLower "table".toList ≠ foldLower w := by decide
    rw [wordOf_append htable hends]
    exact ⟨word_creationWords w hw, hwords w hw⟩
  have hsemi : ¬ ("create".toList ++ (' ' :: ("table".toList ++
      (' ' :: (nameText (parts table.ref) ++ (" (".toList ++
        (keyText ((items table).map Prod.fst) ++ (";\n".toList ++ rest)))))))).head? = some ';' :=
    show ¬ (some 'c' : Option Char) = some ';' by decide
  rw [htext, (word_create.settled hbehind).read_readStatement, wordOf_append word_create hbehind,
    if_neg hsemi, if_pos rfl, List.drop_left, readCreate, read_bind, hnone, Option.bind_some,
    read_bind,
    htable.read_eatKeyword_this hends, Option.bind_some, if_pos rfl, h.read_readCreateTable]

end Tables

end Uniorm.Ddl
