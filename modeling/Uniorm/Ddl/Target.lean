import Uniorm.Ddl.Items
import Uniorm.Ddl.Neutral

/-! # A table with a given name and key

A statement that creates a table of any name, quoted, with a primary key of any
columns, and what it is read as. It is what a script can say behind a key that
names no columns to let it have some.
-/
namespace Uniorm.Ddl

open Foundation Foundation.Scan Sql Builder Schema

def keyText : List Text → Text
  | [] => [')']
  | [name] => name ++ [')']
  | name :: names => name ++ ',' :: keyText names

def targetText (name : Text) (key : List Text) : Text :=
  "create table ".toList ++
    (delimited .double name ++ ' ' :: ("(primary key (".toList ++ (keyText key ++ [')'])))

section Names
variable {name text : Text}

theorem quotedName_escaped (name : Text) (h : text.head? ≠ some '"') :
    quotedName '"' (escaped .double name ++ '"' :: text) =
      some (name, (escaped .double name).length + 1) := by
  induction name with
  | nil =>
    cases text with
    | nil => rfl
    | cons d ds =>
      have hd : d ≠ '"' := fun heq => h (by rw [heq]; rfl)
      simp [escaped, quotedName, hd]
  | cons c cs ih =>
    by_cases hc : c = '"'
    · rw [escaped_cons, if_pos (show c = Quote.double.char from hc), List.cons_append,
        List.cons_append, quotedName, ih, hc]
      rfl
    · obtain ⟨d, ds, hd⟩ : ∃ d ds, escaped .double cs ++ '"' :: text = d :: ds :=
        List.exists_cons_of_ne_nil (List.append_ne_nil_of_right_ne_nil _ (List.cons_ne_nil _ _))
      rw [escaped_cons, if_neg (show c ≠ Quote.double.char from hc), List.cons_append]
      rw [hd] at ih ⊢
      simp [quotedName, hc, ih]

theorem Settled.read_identifier_name [Dangling] (hsettled : Settled text)
    (h : text.head?.any isNameQuote = true) : identifier.read text =
      (text.head?.bind fun quote => quotedName quote text.tail).map fun r =>
        (r.1, text.drop (r.2 + 1)) := by
  have hne : text ≠ [] := fun hnil => by simp [hnil] at h
  simp only [identifier, read_bind, hsettled.read_skipBlanks, Option.bind_some, read_peek, read_ite,
    if_neg hne, if_pos h]
  cases text.head?.bind fun quote => quotedName quote text.tail with
  | none => rfl
  | some r => rfl

theorem Settled.read_identifier_word [Dangling] (hsettled : Settled text)
    (h : text.head?.any identStart = true) :
    identifier.read text = some (wordOf text, text.drop (wordOf text).length) := by
  have hne : text ≠ [] := fun hnil => by simp [hnil] at h
  have hquote : ¬ text.head?.any isNameQuote = true := by
    obtain ⟨c, cs, rfl⟩ := List.exists_cons_of_ne_nil hne
    intro hq
    simp only [List.head?_cons, Option.any_some, isNameQuote, Bool.or_eq_true, beq_iff_eq] at hq
    rcases hq with rfl | rfl <;> cases h
  simp only [identifier, read_bind, hsettled.read_skipBlanks, Option.bind_some, read_peek, read_ite,
    if_neg hne, if_neg hquote, if_pos h, read_advance, read_pure]

theorem read_identifier_quoted [Dangling] (name : Text) (h : text.head? ≠ some '"') :
    identifier.read (delimited .double name ++ text) = some (name, text) := by
  have hquote : delimited .double name ++ text = '"' :: (escaped .double name ++ '"' :: text) := by
    rw [delimited, List.cons_append, List.cons_append, List.append_assoc]
    rfl
  have hdrop : (escaped .double name ++ '"' :: text).drop ((escaped .double name).length + 1) = text := by
    rw [List.drop_append]
    simp
  have hname := quotedName_escaped name h
  have hsettled : Settled ('"' :: (escaped .double name ++ '"' :: text)) := settled_of_quoteStart rfl _
  rw [hquote, hsettled.read_identifier_name rfl, List.head?_cons, Option.bind_some, List.tail_cons,
    hname, Option.map_some, List.drop_succ_cons, hdrop]

end Names

/-- One round of `name_list`. -/
def nameStep [Dangling] (names : List Text) : Reading (List Text ⊕ List Text) := do
  let closed ← eat ')'
  if closed then pure (.inr names)
  else
    let name ← identifier
    let more ← eat ','
    if more then pure (.inl (names ++ [name]))
    else
      expect ')'
      pure (.inr (names ++ [name]))

theorem nameList_eq [Dangling] : nameList = (do
    expect '('
    loop nameStep []) := rfl

section Word
variable {w text : Text} (hw : Word w) (hends : EndsWord text)
include hw hends

theorem Word.settled : Settled (w ++ text) := (Piece.word hw hends).settled

theorem Word.read_identifier [Dangling] : identifier.read (w ++ text) = some (w, text) := by
  have hstart : (w ++ text).head?.any identStart = true := by
    obtain ⟨c, cs, rfl, hc⟩ := hw.eq_cons
    exact hc
  rw [(hw.settled hends).read_identifier_word hstart, wordOf_append hw hends, List.drop_left]

theorem Word.read_eat {ch : Char} (hch : identStart ch = false) :
    (eat ch).read (w ++ text) = some (false, w ++ text) := by
  rw [(hw.settled hends).read_eat, if_neg]
  obtain ⟨c, cs, rfl, hc⟩ := hw.eq_cons
  exact fun heq => ne_of_identStart hc hch (Option.some.inj heq)

theorem Word.read_eatKeyword {word : Text} (hword : Word word) : (eatKeyword word).read (w ++ text) =
    some (if foldLower w = foldLower word then (true, text) else (false, w ++ text)) := by
  rw [(hw.settled hends).read_eatKeyword hword, wordOf_append hw hends]
  split_ifs with hfold
  · rw [← foldLower_length, ← hfold, foldLower_length, List.drop_left]
  · rfl

end Word

/-- A space in front makes no difference. -/
theorem SkipsFirst.read_space {α : Type} {x : Reading α} (h : SkipsFirst x) {text : Text}
    (hsettled : Settled text) : x.read (' ' :: text) = x.read text := by
  refine h (' ' :: text) text ?_ hsettled
  rw [read_skipBlanks_space rfl, hsettled.read_skipBlanks]

theorem read_nameStep_keyText [Dangling] {names key : List Text} (hkey : ∀ k ∈ key, Word k) (hne : key ≠ [])
    (text : Text) : (loop nameStep names).read (keyText key ++ text) = some (names ++ key, text) := by
  induction key generalizing names with
  | nil => exact absurd rfl hne
  | cons name key ih =>
    obtain ⟨hname, hmore⟩ := List.forall_mem_cons.mp hkey
    cases key with
    | nil =>
      have hends : EndsWord (')' :: text) := rfl
      have htext : keyText [name] ++ text = name ++ ')' :: text := by
        rw [keyText, List.append_assoc]
        rfl
      have hclose : (expect ')').read (')' :: text) = some ((), text) :=
        (settled_of_head rfl ⟨by decide, by decide⟩ (by decide) text).read_expect rfl
      refine read_loop_done ?_
      rw [htext, nameStep, read_bind, hname.read_eat hends rfl, Option.bind_some,
        if_neg Bool.false_ne_true, read_bind, hname.read_identifier hends]
      rfl
    | cons name' key =>
      have hends : EndsWord (',' :: (keyText (name' :: key) ++ text)) := rfl
      have htext : keyText (name :: name' :: key) ++ text =
          name ++ ',' :: (keyText (name' :: key) ++ text) := by
        rw [keyText, List.append_assoc]
        · rfl
        · exact List.cons_ne_nil _ _
      have hstep : (nameStep names).read (keyText (name :: name' :: key) ++ text) =
          some (.inl (names ++ [name]), keyText (name' :: key) ++ text) := by
        rw [htext, nameStep, read_bind, hname.read_eat hends rfl, Option.bind_some,
          if_neg Bool.false_ne_true, read_bind, hname.read_identifier hends]
        rfl
      have hlt : (keyText (name' :: key) ++ text).length <
          (keyText (name :: name' :: key) ++ text).length := by
        simp only [htext, List.length_append, List.length_cons]
        omega
      rw [read_loop_step hstep hlt (ih hmore (List.cons_ne_nil _ _)), List.append_assoc]
      rfl

/-- Words that do not stand next are not eaten. -/
theorem read_eatKeywords_none {text settled : Text} {words : List Text}
    (hskip : skipBlanks.read text = some ((), settled)) (hne : words ≠ [])
    (hwords : ∀ w ∈ words, Word w ∧ foldLower (wordOf settled) ≠ foldLower w) :
    (eatKeywords words).read text = some ((), settled) := by
  have hsettled := settled_of_skipBlanks hskip
  have hstays : (eatKeywords words).read settled = some ((), settled) := by
    clear hne
    induction words with
    | nil => rfl
    | cons w words ih =>
      obtain ⟨⟨hword, hfold⟩, hmore⟩ := List.forall_mem_cons.mp hwords
      rw [eatKeywords, read_bind, hsettled.read_eatKeyword hword, if_neg hfold, Option.bind_some]
      exact ih hmore
  obtain ⟨w, words, rfl⟩ := List.exists_cons_of_ne_nil hne
  rw [← hstays, eatKeywords]
  exact (skipsFirst_eatKeyword w).bind _ text settled hskip hsettled

section Target
variable {key : List Text} (hkey : ∀ k ∈ key, Word k) (hne : key ≠ [])

theorem key_ends (text : Text) : EndsWord (" key (".toList ++ (keyText key ++ text)) := rfl

theorem word_primary : Word "primary".toList := ⟨rfl, rfl⟩

theorem key_settled (text : Text) :
    Settled ("primary".toList ++ (" key (".toList ++ (keyText key ++ text))) :=
  word_primary.settled (key_ends text)

theorem read_key_other {word : Text} (hword : Word word) (hother : foldLower word ≠ "primary".toList)
    (text : Text) : (eatKeyword word).read
      ("primary".toList ++ (" key (".toList ++ (keyText key ++ text))) =
        some (false, "primary".toList ++ (" key (".toList ++ (keyText key ++ text))) := by
  rw [word_primary.read_eatKeyword (key_ends text) hword, if_neg]
  exact fun heq => hother heq.symm

theorem read_key_lead [Dangling] (text : Text) :
    constraintLead.read ("primary".toList ++ (" key (".toList ++ (keyText key ++ text))) =
      some (true, "primary".toList ++ (" key (".toList ++ (keyText key ++ text))) := by
  simp only [constraintLead, constraintLeads, List.map_cons, List.cons_append, anyOf, read_bind,
    peekKeyword, (key_settled text).read_skipBlanks, Option.bind_some, read_peek, read_pure, read_ite,
    startsKeyword_eq word_primary, wordOf_append word_primary (key_ends text), beq_self_eq_true, if_true]

include hkey hne

theorem read_key [Dangling] (table : Text) {text : Text} (hitem : skipItem.read text = some ((), text)) :
    (readConstraint table).read ("primary".toList ++ (" key (".toList ++ (keyText key ++ text))) =
      some (key.map .key, text) := by
  have hthis : (eatKeyword "primary".toList).read
      ("primary".toList ++ (" key (".toList ++ (keyText key ++ text))) =
        some (true, " key (".toList ++ (keyText key ++ text)) := by
    rw [word_primary.read_eatKeyword (key_ends text) word_primary, if_pos rfl]
  have hkeyword : (eatKeyword "key".toList).read (" key (".toList ++ (keyText key ++ text)) =
      some (true, " (".toList ++ (keyText key ++ text)) := by
    have hword : Word "key".toList := ⟨rfl, rfl⟩
    have hbehind : EndsWord (" (".toList ++ (keyText key ++ text)) := rfl
    have hspace := (skipsFirst_eatKeyword "key".toList).read_space (hword.settled hbehind)
    rw [hword.read_eatKeyword hbehind hword, if_pos rfl] at hspace
    exact hspace
  have hnames : nameList.read (" (".toList ++ (keyText key ++ text)) = some (key, text) := by
    have hopen : Settled ('(' :: (keyText key ++ text)) :=
      settled_of_head rfl ⟨by decide, by decide⟩ (by decide) _
    have hexpect : (expect '(').read (" (".toList ++ (keyText key ++ text)) =
        some ((), keyText key ++ text) :=
      ((skipsFirst_eat '(').bind _).read_space hopen |>.trans (hopen.read_expect rfl)
    rw [nameList_eq, read_bind, hexpect, Option.bind_some, read_nameStep_keyText hkey hne]
    rfl
  rw [readConstraint, read_bind, hthis, Option.bind_some, if_pos rfl, read_bind, expectKeyword,
    read_bind, hkeyword]
  simp only [Option.bind_some, Bool.not_true, Bool.false_eq_true, if_false, read_pure, read_bind, hnames,
    hitem]

def itemStep [Dangling] (table : Text) (edits : List Edit) : Reading (List Edit ⊕ List Edit) := do
  let closed ← eat ')'
  if closed then pure (.inr edits)
  else
    let item ← readTableItem table
    let more ← eat ','
    if more then pure (.inl (edits ++ item))
    else
      expect ')'
      pure (.inr (edits ++ item))

omit hkey hne in
theorem readTableItems_eq [Dangling] (table : Text) : readTableItems table = (do
    let like ← eatKeyword "like".toList
    if like then fail "CREATE TABLE ... LIKE copies a table this script does not give".toList
    else
      expect '('
      let edits ← loop (itemStep table) []
      statementEnd
      pure (edits ++ [.applyKeys])) := rfl

theorem read_items [Dangling] (table : Text) {rest : Text} (hrest : EndsStatement rest) :
    (readTableItems table).read ("(primary key (".toList ++ (keyText key ++ ')' :: rest)) =
      some (key.map .key ++ [.applyKeys], rest.tail) := by
  have htext : "(primary key (".toList ++ (keyText key ++ ')' :: rest) =
      '(' :: ("primary".toList ++ (" key (".toList ++ (keyText key ++ ')' :: rest))) := rfl
  have hsettled :
      Settled ('(' :: ("primary".toList ++ (" key (".toList ++ (keyText key ++ ')' :: rest)))) :=
    settled_of_head rfl ⟨by decide, by decide⟩ (by decide) _
  have hlike : (eatKeyword "like".toList).read
      ('(' :: ("primary".toList ++ (" key (".toList ++ (keyText key ++ ')' :: rest)))) =
        some (false, '(' :: ("primary".toList ++ (" key (".toList ++ (keyText key ++ ')' :: rest)))) := by
    rw [hsettled.read_eatKeyword ⟨rfl, rfl⟩]
    rfl
  have hclosed : (eat ')').read ("primary".toList ++ (" key (".toList ++ (keyText key ++ ')' :: rest))) =
      some (false, "primary".toList ++ (" key (".toList ++ (keyText key ++ ')' :: rest))) := rfl
  have hclose : Settled (')' :: rest) := settled_of_head rfl ⟨by decide, by decide⟩ (by decide) _
  have hitem : skipItem.read (')' :: rest) = some ((), ')' :: rest) := by
    rw [skipItem_eq]
    refine read_loop_done ?_
    rw [hclose.read_skipStep]
    rfl
  have hmore : (eat ',').read (')' :: rest) = some (false, ')' :: rest) := by
    rw [hclose.read_eat]
    rfl
  have hexpect : (expect '(').read
      ('(' :: ("primary".toList ++ (" key (".toList ++ (keyText key ++ ')' :: rest)))) =
        some ((), "primary".toList ++ (" key (".toList ++ (keyText key ++ ')' :: rest))) :=
    hsettled.read_expect rfl
  have hstep : (itemStep table []).read
      ("primary".toList ++ (" key (".toList ++ (keyText key ++ ')' :: rest))) =
        some (.inr (key.map .key), rest) := by
    rw [itemStep, read_bind, hclosed, Option.bind_some, if_neg Bool.false_ne_true, read_bind,
      readTableItem, read_bind, read_key_other ⟨rfl, rfl⟩ (by decide), Option.bind_some,
      if_neg Bool.false_ne_true, read_bind, read_key_lead, Option.bind_some, if_pos rfl,
      read_key hkey hne table hitem, Option.bind_some, read_bind, hmore, Option.bind_some,
      if_neg Bool.false_ne_true, read_bind, hclose.read_expect rfl]
    rfl
  rw [htext, readTableItems_eq, read_bind, hlike, Option.bind_some, if_neg Bool.false_ne_true, read_bind,
    hexpect, Option.bind_some, read_bind, read_loop_done hstep, Option.bind_some, read_bind,
    read_statementEnd hrest]
  rfl

end Target

/-- One round of `qualified`. -/
def partStep [Dangling] (parts : List Text) : Reading (List Text ⊕ List Text) := do
  let dot ← eat '.'
  if dot then
    let part ← identifier
    pure (.inl (parts ++ [part]))
  else pure (.inr parts)

theorem qualified_eq [Dangling] : qualified = (do
    let first ← identifier
    loop partStep [first]) := rfl

section Create
variable {items : Text} (hsettled : Settled items) (hdot : items.head? ≠ some '.') (name : Text)
include hsettled hdot

omit hsettled hdot in
/-- A name with nothing in front of it. -/
theorem read_tableName_one [Dangling] {text text' rest name : Text}
    (hname : identifier.read text = some (name, text'))
    (hend : (eat '.').read text' = some (false, rest)) : tableName.read text = some ([name], rest) := by
  have hstep : (partStep [name]).read text' = some (.inr [name], rest) := by
    rw [partStep, read_bind, hend]
    rfl
  rw [tableName, read_bind, qualified_eq, read_bind, hname, Option.bind_some, read_loop_done hstep]
  rfl

theorem read_createTable_quoted [Dangling] :
    readCreateTable.read (' ' :: (delimited .double name ++ ' ' :: items)) =
    ((readTableItems name).read items).map fun r => (.createTable [name] r.1, r.2) := by
  have hquoted : Settled (delimited .double name ++ ' ' :: items) := settled_of_quoteStart rfl _
  have hskip : skipBlanks.read (' ' :: (delimited .double name ++ ' ' :: items)) =
      some ((), delimited .double name ++ ' ' :: items) := by
    rw [read_skipBlanks_space rfl, hquoted.read_skipBlanks]
  have hnone : (eatKeywords ifNotExists).read (' ' :: (delimited .double name ++ ' ' :: items)) =
      some ((), delimited .double name ++ ' ' :: items) := by
    refine read_eatKeywords_none hskip (by decide) fun w hw => ?_
    have hempty : wordOf (delimited .double name ++ ' ' :: items) = [] := rfl
    have hwords : ∀ w ∈ ifNotExists, Word w ∧ [] ≠ foldLower w := by
      intro w hw
      simp only [ifNotExists, List.map_cons, List.map_nil, List.mem_cons, List.not_mem_nil,
        or_false] at hw
      rcases hw with rfl | rfl | rfl <;> exact ⟨⟨rfl, rfl⟩, by decide⟩
    rw [hempty]
    exact hwords w hw
  have hname : identifier.read (delimited .double name ++ ' ' :: items) = some (name, ' ' :: items) :=
    read_identifier_quoted name (show (some ' ' : Option Char) ≠ some '"' by decide)
  have hend : (eat '.').read (' ' :: items) = some (false, items) := by
    rw [(skipsFirst_eat '.').read_space hsettled, hsettled.read_eat, if_neg hdot]
  have hparts := read_tableName_one hname hend
  rw [readCreateTable, read_bind, hnone, Option.bind_some, read_bind, hparts, Option.bind_some,
    read_bind, Option.map_eq_bind]
  rfl

theorem read_create_quoted [Dangling] (tables : List Text → Option Text) :
    (readStatement tables).read ("create table ".toList ++ (delimited .double name ++ ' ' :: items)) =
      ((readTableItems name).read items).map fun r => (.createTable [name] r.1, r.2) := by
  have htable : Word "table".toList := ⟨rfl, rfl⟩
  have hends : EndsWord (' ' :: (delimited .double name ++ ' ' :: items)) := rfl
  have hcreate : "create table ".toList ++ (delimited .double name ++ ' ' :: items) = "create".toList ++
      (' ' :: ("table".toList ++ ' ' :: (delimited .double name ++ ' ' :: items))) := rfl
  have hskip :
      skipBlanks.read (' ' :: ("table".toList ++ ' ' :: (delimited .double name ++ ' ' :: items))) =
      some ((), "table".toList ++ ' ' :: (delimited .double name ++ ' ' :: items)) := by
    rw [read_skipBlanks_space rfl, (htable.settled hends).read_skipBlanks]
  have hnone : (eatKeywords creationWords).read
      (' ' :: ("table".toList ++ ' ' :: (delimited .double name ++ ' ' :: items))) =
        some ((), "table".toList ++ ' ' :: (delimited .double name ++ ' ' :: items)) := by
    refine read_eatKeywords_none hskip (by decide) fun w hw => ?_
    have hwords : ∀ w ∈ creationWords, foldLower "table".toList ≠ foldLower w := by decide
    rw [wordOf_append htable hends]
    exact ⟨word_creationWords w hw, hwords w hw⟩
  have hbehind : EndsWord
      (' ' :: ("table".toList ++ ' ' :: (delimited .double name ++ ' ' :: items))) := rfl
  have hsemi : ¬ ("create".toList ++ (' ' :: ("table".toList ++
      ' ' :: (delimited .double name ++ ' ' :: items)))).head? = some ';' :=
    show ¬ (some 'c' : Option Char) = some ';' by decide
  rw [hcreate, (word_create.settled hbehind).read_readStatement, wordOf_append word_create hbehind,
    if_neg hsemi, if_pos rfl, List.drop_left, readCreate, read_bind, hnone, Option.bind_some, read_bind,
    htable.read_eatKeyword hends htable, if_pos rfl, Option.bind_some, if_pos rfl]
  exact read_createTable_quoted hsettled hdot name

end Create

theorem append_pieces (a b c d rest : Text) :
    a ++ (b ++ ' ' :: (c ++ (d ++ [')']))) ++ rest = a ++ (b ++ ' ' :: (c ++ (d ++ ')' :: rest))) := by
  simp

theorem read_targetText [Dangling] (name : Text) {key : List Text} (hkey : ∀ k ∈ key, Word k)
    (hne : key ≠ [])
    {rest : Text} (hrest : EndsStatement rest) (tables : List Text → Option Text) :
    (readStatement tables).read (targetText name key ++ rest) =
      some (.createTable [name] (key.map .key ++ [.applyKeys]), rest.tail) := by
  have htext : targetText name key ++ rest = "create table ".toList ++
      (delimited .double name ++ ' ' :: ("(primary key (".toList ++ (keyText key ++ ')' :: rest))) :=
    append_pieces _ _ _ _ _
  have hopen : "(primary key (".toList ++ (keyText key ++ ')' :: rest) =
      '(' :: ("primary key (".toList ++ (keyText key ++ ')' :: rest)) := rfl
  have hsettled : Settled ("(primary key (".toList ++ (keyText key ++ ')' :: rest)) := by
    rw [hopen]
    exact settled_of_head rfl ⟨by decide, by decide⟩ (by decide) _
  have hdot : ("(primary key (".toList ++ (keyText key ++ ')' :: rest)).head? ≠ some '.' := by
    rw [hopen, List.head?_cons]
    decide
  rw [htext, read_create_quoted hsettled hdot, read_items hkey hne name hrest, Option.map_some]

end Uniorm.Ddl
