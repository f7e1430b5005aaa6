import Uniorm.Ddl.Written

/-! # A column that is written and read

The definition says the name, the type with its size, whether the column is
nullable, and the default. So each field of the row is said, and the loop over
the clauses leaves the row that was written.
-/
namespace Uniorm.Ddl

open Foundation Foundation.Scan Sql Builder Schema

theorem clampFrom_eq {digits : Text} {total : ℕ}
    (h : Nat.ofDigitChars 10 digits total ≤ int32Max) :
    clampFrom total digits = Nat.ofDigitChars 10 digits total := by
  have hgrows : ∀ (digits : Text) (n : ℕ), n ≤ Nat.ofDigitChars 10 digits n := by
    intro digits
    induction digits with
    | nil => exact fun n => (Nat.ofDigitChars_nil).ge
    | cons c digits ih =>
      intro n
      rw [Nat.ofDigitChars_cons]
      exact le_trans (by omega) (ih _)
  induction digits generalizing total with
  | nil => exact Nat.ofDigitChars_nil.symm
  | cons c digits ih =>
    rw [Nat.ofDigitChars_cons, Nat.mul_comm] at h ⊢
    have hle := (hgrows digits _).trans h
    rw [clampFrom, if_neg (Nat.not_lt.mpr hle), ih h]

theorem clampSize_numeral {n : ℕ} (h : n ≤ int32Max) : clampSize (numeral n) = n := by
  have hvalue : Nat.ofDigitChars 10 (numeral n) 0 = n := Nat.ofDigitChars_ten_toDigits
  rw [clampSize, clampFrom_eq (hvalue.trans_le h), hvalue]

theorem allDigits_numeral (n : ℕ) : allDigits (numeral n) = true := by
  rw [allDigits, Bool.and_eq_true, decide_eq_true_eq]
  exact ⟨numeral_ne_nil n, List.all_eq_true.mpr fun c hc => isDigit_of_mem_numeral hc⟩

def sizeText (row : ColumnRow) : Text :=
  if row.decimals ≠ 0 then
    '(' :: (numeral row.size.toNat ++ ',' :: (numeral (row.decimals % 65536).toNat ++ [')']))
  else if row.size ≠ 0 then '(' :: (numeral row.size.toNat ++ [')'])
  else []

def argumentStep [Dangling] (state : ℕ × ColumnRow) : Reading ((ℕ × ColumnRow) ⊕ ColumnRow) := do
  let closed ← eat ')'
  if closed then pure (.inr state.2)
  else
    let item ← value
    let row := argument state.1 item state.2
    let more ← eat ','
    if more then pure (.inl (state.1 + 1, row))
    else
      expect ')'
      pure (.inr row)

theorem readArguments_eq [Dangling] (row : ColumnRow) : readArguments row =
    loop argumentStep (0, row) := rfl

section Arguments
variable (n : ℕ) (state : ℕ × ColumnRow) (rest : Text)

theorem value_numeral [Dangling] : Value (numeral n) :=
  value_digits (numeral_ne_nil n) fun _ hc => isDigit_of_mem_numeral hc

theorem read_eat_numeral [Dangling] {text : Text} (h : Closes text) :
    (eat ')').read (numeral n ++ text) = some (false, numeral n ++ text) := by
  rw [((value_numeral n).again h).1.read_eat, if_neg]
  obtain ⟨c, cs, hcs⟩ := List.exists_cons_of_ne_nil (numeral_ne_nil n)
  rw [hcs]
  intro heq
  obtain rfl := Option.some.inj heq
  have hdigit : (')').isDigit = true :=
    isDigit_of_mem_numeral (n := n) (hcs ▸ List.mem_cons_self)
  cases hdigit

theorem read_argumentStep_more [Dangling] : (argumentStep state).read (numeral n ++ ',' :: rest) =
    some (.inl (state.1 + 1, argument state.1 (numeral n) state.2), rest) := by
  rw [argumentStep, read_bind, read_eat_numeral n (closes_comma rest), Option.bind_some,
    if_neg Bool.false_ne_true, read_bind, ((value_numeral n).again (closes_comma rest)).2]
  rfl

theorem read_argumentStep_last [Dangling] : (argumentStep state).read (numeral n ++ ')' :: rest) =
    some (.inr (argument state.1 (numeral n) state.2), rest) := by
  rw [argumentStep, read_bind, read_eat_numeral n (closes_parenthesis rest), Option.bind_some,
    if_neg Bool.false_ne_true, read_bind, ((value_numeral n).again (closes_parenthesis rest)).2]
  rfl

end Arguments

/-- What the size of a row may be, as `clamp_size` and 16 bits of decimals give it. -/
structure Sized (row : ColumnRow) : Prop where
  size : 0 ≤ row.size ∧ row.size ≤ int32Max
  decimals : -32768 ≤ row.decimals ∧ row.decimals ≤ 32767

section Size
variable {row : ColumnRow} (h : Sized row)
include h

theorem Sized.clampSize_size : (clampSize (numeral row.size.toNat) : ℤ) = row.size := by
  have hle : row.size.toNat ≤ int32Max := Int.toNat_le.mpr h.size.2
  rw [clampSize_numeral hle]
  exact Int.toNat_of_nonneg h.size.1

theorem Sized.clampSize_decimals :
    Int.bmod (clampSize (numeral (row.decimals % 65536).toNat)) 65536 = row.decimals := by
  obtain ⟨hlow, hhigh⟩ := h.decimals
  have hmod : 0 ≤ row.decimals % 65536 ∧ row.decimals % 65536 < 65536 :=
    ⟨Int.emod_nonneg _ (by decide), Int.emod_lt_of_pos _ (by decide)⟩
  have hle : (row.decimals % 65536).toNat ≤ int32Max := by
    rw [int32Max]
    omega
  have hbmod : (row.decimals % 65536).bmod 65536 = row.decimals.bmod 65536 :=
    Int.emod_bmod _ _
  rw [clampSize_numeral hle, Int.toNat_of_nonneg hmod.1, hbmod]
  exact Int.bmod_eq_of_le (by omega) (by omega)

theorem Sized.read_arguments [Dangling] {fresh : ColumnRow}
    (hdecimals : fresh.decimals = 0) {args : Text} (htext : sizeText row =
    '(' :: args) (rest : Text) :
    (readArguments fresh).read (args ++ rest) =
      some ({ fresh with size := row.size, decimals := row.decimals }, rest) := by
  have hfirst : argument 0 (numeral row.size.toNat) fresh = { fresh with size := row.size } := by
    rw [argument, allDigits_numeral, h.clampSize_size]
    rfl
  rw [readArguments_eq]
  rw [sizeText] at htext
  by_cases hzero : row.decimals = 0
  · rw [if_neg (not_not_intro hzero)] at htext
    by_cases hnone : row.size = 0
    · rw [if_neg (not_not_intro hnone)] at htext
      cases htext
    · rw [if_pos hnone] at htext
      obtain rfl := (List.cons.inj htext).2
      rw [List.append_assoc]
      refine read_loop_done ?_
      rw [List.singleton_append, read_argumentStep_last, hfirst, hzero, ← hdecimals]
  · rw [if_pos hzero] at htext
    obtain rfl := (List.cons.inj htext).2
    have hsecond : argument 1 (numeral (row.decimals % 65536).toNat)
        { fresh with size := row.size } =
          { fresh with size := row.size, decimals := row.decimals } := by
      rw [argument, allDigits_numeral, h.clampSize_decimals]
      rfl
    have hargs : numeral row.size.toNat ++
        ',' :: (numeral (row.decimals % 65536).toNat ++ [')']) ++ rest =
          numeral row.size.toNat ++ ',' :: (numeral (row.decimals % 65536).toNat ++ ')' :: rest) := by
      simp
    have hlast := read_argumentStep_last (row.decimals % 65536).toNat
      (1, argument 0 (numeral row.size.toNat) fresh) rest
    rw [hfirst] at hlast
    dsimp only at hlast
    rw [hsecond] at hlast
    rw [hargs]
    refine read_loop_step (read_argumentStep_more _ _ _) ?_ ?_
    · simp only [List.length_append, List.length_cons]
      omega
    · dsimp only
      rw [hfirst]
      exact read_loop_done hlast

end Size

/-- No spelling of the table goes on with one of these words. -/
theorem not_continued : ∀ word ∈ ["NOT", "NULL"], ∀ entry ∈ typeTable,
    ∀ n ∈ List.range (entry.1.toList.length + 1),
      (' ' :: word.toList).isPrefixOf (entry.1.toList.drop n) = false := by
  decide +kernel

theorem not_continued_by {word : String} (hword : word ∈ ["NOT", "NULL"]) {entry : String × SqlType}
    (hentry : entry ∈ typeTable) {phrase more : Text} :
    phrase ++ ' ' :: word.toList ++ more ≠ entry.1.toList := by
  intro heq
  have hdrop : entry.1.toList.drop phrase.length = ' ' :: word.toList ++ more := by
    rw [← heq, List.append_assoc, List.drop_left]
  have hn : phrase.length ∈ List.range (entry.1.toList.length + 1) := by
    rw [List.mem_range, ← heq, List.length_append, List.length_append]
    omega
  have hnone := not_continued word hword entry hentry _ hn
  rw [hdrop, List.isPrefixOf_iff_prefix.mpr (List.prefix_append _ _)] at hnone
  cases hnone

theorem not_knownType {word : String} (hword : word ∈ ["NOT", "NULL"]) (phrase : Text) :
    knownType (phrase ++ ' ' :: word.toList) = false := by
  have hnone : (typeTable.find? fun entry => entry.1.toList == phrase ++ ' ' :: word.toList) =
      none := by
    rw [List.find?_eq_none]
    intro entry hentry heq
    have hne : phrase ++ ' ' :: word.toList ++ [] ≠ entry.1.toList :=
      not_continued_by hword hentry
    rw [List.append_nil] at hne
    exact hne (beq_iff_eq.mp heq).symm
  rw [knownType, findType, hnone]
  rfl

theorem not_typeContinues {word : String} (hword : word ∈ ["NOT", "NULL"]) (phrase : Text) :
    typeContinues (phrase ++ ' ' :: word.toList) = false := by
  rw [typeContinues, List.any_eq_false]
  intro entry hentry hprefix
  obtain ⟨more, hmore⟩ := List.isPrefixOf_iff_prefix.mp hprefix
  rw [List.append_assoc] at hmore
  exact not_continued_by hword hentry hmore

/-- One round over the words of a type. -/
def phraseStep (phrase : Text) : Reading (Text ⊕ Text) := do
  let word ← peekWord
  let next := phrase ++ ' ' :: foldUpper word
  if word = [] || (!knownType next && !typeContinues next) then pure (.inr phrase)
  else
    takeWord
    pure (.inl next)

theorem readPhrase_eq (phrase : Text) : readPhrase phrase = loop phraseStep phrase := rfl

theorem skipsFirst_phraseStep (phrase : Text) : SkipsFirst (phraseStep phrase) :=
  (skipsFirst_skipBlanks.bind _).bind _

def SaysNull (s : Text) : Prop :=
  ∃ (word : String) (more : Text), word ∈ ["not", "null"] ∧ s = word.toList ++ more ∧ EndsWord more

section Null
variable {s : Text} (h : SaysNull s)
include h

theorem SaysNull.word : ∃ word ∈ ["not", "null"], wordOf s = word.toList ∧ Starts s := by
  obtain ⟨word, more, hword, rfl, hends⟩ := h
  have hw : Word word.toList ∧ Starts word.toList := by
    simp only [List.mem_cons, List.not_mem_nil, or_false] at hword
    rcases hword with rfl | rfl
    · exact ⟨⟨rfl, rfl⟩, _, _, rfl, .inr rfl⟩
    · exact ⟨⟨rfl, rfl⟩, _, _, rfl, .inr rfl⟩
  exact ⟨word, hword, wordOf_append hw.1 hends, hw.2.append more⟩

theorem SaysNull.settled : Settled s := by
  obtain ⟨-, -, -, hstarts⟩ := h.word
  have hsettled := hstarts.settled []
  rwa [List.append_nil] at hsettled

theorem SaysNull.head_ne {c : Char} (hquote : c ≠ '"') (hc : identStart c = false) :
    s.head? ≠ some c := by
  obtain ⟨-, -, -, hstarts⟩ := h.word
  have hne := hstarts.head_ne hquote hc []
  rwa [List.append_nil] at hne

theorem SaysNull.read_eat {c : Char} (hquote : c ≠ '"') (hc : identStart c = false) :
    (eat c).read s = some (false, s) := by
  rw [h.settled.read_eat, if_neg (h.head_ne hquote hc)]

theorem SaysNull.read_phraseStep (phrase : Text) :
    (phraseStep phrase).read s = some (.inr phrase, s) := by
  obtain ⟨word, hword, hof, -⟩ := h.word
  have hstop : wordOf s = [] ∨ (knownType (phrase ++ ' ' :: foldUpper (wordOf s)) = false ∧
      typeContinues (phrase ++ ' ' :: foldUpper (wordOf s)) = false) := by
    rw [hof]
    simp only [List.mem_cons, List.not_mem_nil, or_false] at hword
    rcases hword with rfl | rfl
    · have hmem : "NOT" ∈ ["NOT", "NULL"] := by decide
      exact .inr ⟨not_knownType hmem phrase, not_typeContinues hmem phrase⟩
    · have hmem : "NULL" ∈ ["NOT", "NULL"] := by decide
      exact .inr ⟨not_knownType hmem phrase, not_typeContinues hmem phrase⟩
  rw [phraseStep, read_bind, peekWord, read_bind, h.settled.read_skipBlanks, Option.bind_some,
    read_bind, read_peek, Option.bind_some, read_pure, Option.bind_some]
  dsimp only
  rw [if_pos]
  · rfl
  · rcases hstop with hnil | ⟨hknown, hcontinues⟩
    · rw [hnil]
      rfl
    · rw [hknown, hcontinues, Bool.or_eq_true]
      exact .inr rfl

/-- The phrase ends, with or without a space in front of the word. -/
theorem SaysNull.read_phrase (phrase : Text) :
    (readPhrase phrase).read s = some (phrase, s) ∧
      (readPhrase phrase).read (' ' :: s) = some (phrase, s) := by
  rw [readPhrase_eq]
  have hstep := h.read_phraseStep phrase
  refine ⟨read_loop_done hstep, read_loop_done ?_⟩
  rw [(skipsFirst_phraseStep phrase).read_space h.settled, hstep]

theorem SaysNull.read_eatOneOf {words : List Text}
    (hwords : ∀ w ∈ words, Word w ∧ foldLower w ∉ ["not".toList, "null".toList]) :
    (eatOneOf words).read s = some (false, s) := by
  obtain ⟨word, hword, hof, -⟩ := h.word
  have hfold : foldLower (wordOf s) ∈ ["not".toList, "null".toList] := by
    rw [hof]
    simp only [List.mem_cons, List.not_mem_nil, or_false] at hword
    rcases hword with rfl | rfl
    · exact List.mem_cons_self
    · exact List.mem_cons_of_mem _ List.mem_cons_self
  induction words with
  | nil => rfl
  | cons w words ih =>
    obtain ⟨⟨hw, hne⟩, hmore⟩ := List.forall_mem_cons.mp hwords
    have hother : foldLower (wordOf s) ≠ foldLower w := by
      intro heq
      rw [heq] at hfold
      exact hne hfold
    rw [eatOneOf, read_bind, h.settled.read_eatKeyword hw, if_neg hother]
    exact ih hmore

theorem SaysNull.read_skipSigns : skipSigns.read s = some ((), s) := by
  refine read_loop_done ?_
  have hwords : ∀ w ∈ ["unsigned", "signed", "zerofill"].map String.toList,
      Word w ∧ foldLower w ∉ ["not".toList, "null".toList] := by
    intro w hw
    simp only [List.map_cons, List.map_nil, List.mem_cons, List.not_mem_nil, or_false] at hw
    rcases hw with rfl | rfl | rfl <;> exact ⟨⟨rfl, rfl⟩, by decide⟩
  rw [read_bind, h.read_eatOneOf hwords]
  rfl

end Null

theorem settled_space_eat {s : Text} (hsettled : Settled s) {c : Char} (hne : s.head? ≠ some c) :
    (eat c).read (' ' :: s) = some (false, s) := by
  rw [(skipsFirst_eat c).read_space hsettled, hsettled.read_eat, if_neg hne]

theorem read_type [Dangling] {row fresh : ColumnRow} (hsized : Sized row)
    (hfold : foldUpper row.typeName = row.typeName) (hsize : fresh.size = 0)
    (hdecimals : fresh.decimals = 0) {s : Text} (hs : SaysNull s) :
    (readType fresh).read (delimited .double row.typeName ++ (sizeText row ++ ' ' :: s)) =
      some ({ fresh with
        size := row.size, decimals := row.decimals, typeName := row.typeName,
        shape.type := sqlTypeOf row.typeName,
        shape.nullable := fresh.shape.nullable && !serialTypes.contains row.typeName }, s) := by
  have harray : (peekIs '[').read s = some (false, s) := by
    rw [hs.settled.read_peekIs, beq_eq_false_iff_ne.mpr (hs.head_ne (by decide) rfl)]
  have hname : nameText [row.typeName] = delimited .double row.typeName := List.append_nil _
  have hlast : foldUpper (lastPart [row.typeName]) = row.typeName := hfold
  cases htext : sizeText row with
  | nil =>
    have hsame : row.size = 0 ∧ row.decimals = 0 := by
      rw [sizeText] at htext
      split_ifs at htext with hd hs
      exact ⟨not_not.mp hs, not_not.mp hd⟩
    have hparts :
        qualified.read (delimited .double row.typeName ++ ' ' :: s) = some ([row.typeName], s) := by
      rw [← hname]
      exact read_qualified (settled_space_eat hs.settled (hs.head_ne (by decide) rfl))
        (show (some ' ' : Option Char) ≠ some '"' by decide)
    have hopen := hs.read_eat (c := '(') (by decide) rfl
    simp only [List.nil_append, readType, read_bind, hparts, hopen, hlast, (hs.read_phrase _).1,
      hs.read_skipSigns, harray, Option.bind_some, Bool.false_eq_true, if_false, read_pure, hsame.1,
      hsame.2, hsize, hdecimals]
  | cons c args =>
    obtain rfl : c = '(' := by
      rw [sizeText] at htext
      split_ifs at htext
      · exact (List.cons.inj htext).1.symm
      · exact (List.cons.inj htext).1.symm
    have hparts : qualified.read (delimited .double row.typeName ++ '(' :: (args ++ ' ' :: s)) =
        some ([row.typeName], '(' :: (args ++ ' ' :: s)) := by
      rw [← hname]
      refine read_qualified ?_ (show (some '(' : Option Char) ≠ some '"' by decide)
      rw [(settled_parenthesis _).read_eat]
      rfl
    have hopen : (eat '(').read ('(' :: (args ++ ' ' :: s)) = some (true, args ++ ' ' :: s) := by
      rw [(settled_parenthesis _).read_eat]
      rfl
    have hargs := hsized.read_arguments hdecimals htext (' ' :: s)
    simp only [List.cons_append, readType, read_bind, hparts, hopen, hargs, hlast,
      (hs.read_phrase _).2, hs.read_skipSigns, harray, Option.bind_some, Bool.false_eq_true,
      if_false,
      if_true, read_pure]

def defaultText : Option Text → Text
  | none => []
  | some text => " default ".toList ++ text

def clausesText (row : ColumnRow) : Text :=
  (if row.shape.nullable then "null".toList else "not null".toList) ++ defaultText row.defaultValue

def columnText (row : ColumnRow) : Text :=
  delimited .double row.shape.name ++
    ' ' :: (delimited .double row.typeName ++ (sizeText row ++ ' ' :: clausesText row))

structure WritableColumn [Dangling] (row : ColumnRow) : Prop where
  sized : Sized row
  folded : foldUpper row.typeName = row.typeName
  type : row.shape.type = sqlTypeOf row.typeName
  default : ∀ text, row.defaultValue = some text → Value text

def clauseStep [Dangling] (state : ColumnRow × List Edit) :
    Reading ((ColumnRow × List Edit) ⊕ List Edit) := do
  let atEnd ← atItemEnd
  if atEnd then pure (.inr (state.2 ++ [.column state.1]))
  else
    let (row, edits) ← Clause.readFirst state.1 Clause.all
    pure (.inl (row, state.2 ++ edits))

theorem readColumnDef_eq [Dangling] : readColumnDef = (do
    let name ← identifier
    let row ← readType { shape := { name, nullable := true } }
    loop clauseStep (row, [])) := rfl

theorem skipsFirst_clauseStep [Dangling] (state : ColumnRow × List Edit) : SkipsFirst (clauseStep state) :=
  (skipsFirst_skipBlanks.bind _).bind _

section Clauses
variable {s rest : Text} {row : ColumnRow} {edits : List Edit}

theorem Closes.read_clauseStep [Dangling] (h : Closes rest) (state : ColumnRow × List Edit) :
    (clauseStep state).read rest = some (.inr (state.2 ++ [.column state.1]), rest) := by
  rw [clauseStep, read_bind, h.read_atItemEnd]
  rfl

theorem Word.read_clauseStep [Dangling] {w : Text} (hw : Word w) (hends : EndsWord rest)
    (state : ColumnRow × List Edit) : (clauseStep state).read (w ++ rest) =
      ((Clause.readFirst state.1 Clause.all).read (w ++ rest)).map fun r =>
        (.inl (r.1.1, state.2 ++ r.1.2), r.2) := by
  have hsettled := hw.settled hends
  have hend : atItemEnd.read (w ++ rest) = some (false, w ++ rest) := by
    obtain ⟨c, cs, rfl, hc⟩ := hw.eq_cons
    have hnone : (c == ',' || c == ')' || c == ';') = false := by
      rw [beq_eq_false_iff_ne.mpr (ne_of_identStart hc rfl : c ≠ ','),
        beq_eq_false_iff_ne.mpr (ne_of_identStart hc rfl : c ≠ ')'),
        beq_eq_false_iff_ne.mpr (ne_of_identStart hc rfl : c ≠ ';')]
      rfl
    rw [atItemEnd, read_bind, hsettled.read_skipBlanks, Option.bind_some, read_bind, read_peek,
      Option.bind_some, read_pure, List.cons_append, List.head?_cons, Option.all_some, hnone]
  rw [clauseStep, read_bind, hend, Option.bind_some, if_neg Bool.false_ne_true, read_bind,
    Option.map_eq_bind]
  rfl

/-- The clauses whose words are other ones are passed over. -/
theorem Word.read_readFirst_other [Dangling] {w : Text} (hw : Word w) (hends : EndsWord rest)
    {clause : Clause}
    (h : ∀ lead ∈ clause.leads, Word lead.toList ∧ foldLower w ≠ foldLower lead.toList)
    (row : ColumnRow) (clauses : List Clause) :
    (Clause.readFirst row (clause :: clauses)).read (w ++ rest) =
      (Clause.readFirst row clauses).read (w ++ rest) := by
  have hnone : ∀ leads : List String,
      (∀ lead ∈ leads, Word lead.toList ∧ foldLower w ≠ foldLower lead.toList) →
      (eatOneOf (leads.map String.toList)).read (w ++ rest) = some (false, w ++ rest) := by
    intro leads hleads
    induction leads with
    | nil => rfl
    | cons lead leads ih =>
      obtain ⟨⟨hword, hne⟩, hmore⟩ := List.forall_mem_cons.mp hleads
      rw [List.map_cons, eatOneOf, read_bind, hw.read_eatKeyword hends hword, if_neg hne]
      exact ih hmore
  rw [Clause.readFirst, read_bind, hnone clause.leads h]
  rfl

theorem Word.read_readFirst_this [Dangling] {lead : String} (hw : Word lead.toList) (hends : EndsWord rest)
    (read : ColumnRow → Reading (ColumnRow × List Edit)) (row : ColumnRow) (clauses : List Clause) :
    (Clause.readFirst row (⟨[lead], read⟩ :: clauses)).read (lead.toList ++ rest) =
      (read row).read rest := by
  rw [Clause.readFirst, read_bind, List.map_cons, eatOneOf, read_bind, hw.read_eatKeyword hends hw,
    if_pos rfl]
  rfl

theorem word_not : Word "not".toList := ⟨rfl, rfl⟩

theorem word_null : Word "null".toList := ⟨rfl, rfl⟩

theorem word_default : Word "default".toList := ⟨rfl, rfl⟩

def readNot [Dangling] (row : ColumnRow) : Reading (ColumnRow × List Edit) := do
  let null ← eatKeyword "null".toList
  if null then pure ({ row with shape.nullable := false }, [])
  else
    expectKeyword "enforced".toList
    pure (row, [])

def readNull (row : ColumnRow) : Reading (ColumnRow × List Edit) :=
  pure ({ row with shape.nullable := true }, [])

def readDefault [Dangling] (row : ColumnRow) : Reading (ColumnRow × List Edit) := do
  let text ← value
  pure ({ row with defaultValue := some text }, [])

/-- The three clauses that are written are the first that are tried. -/
theorem all_eq [Dangling] : Clause.all =
    ⟨["not"], readNot⟩ :: ⟨["null"], readNull⟩ :: ⟨["default"], readDefault⟩ :: Clause.all.drop 3 :=
  rfl

theorem read_clause_not_null [Dangling] (hends : EndsWord rest) :
    (clauseStep (row, edits)).read ("not null".toList ++ rest) =
      some (.inl ({ row with shape.nullable := false }, edits), rest) := by
  have htext : "not null".toList ++ rest = "not".toList ++ (' ' :: ("null".toList ++ rest)) := rfl
  have hbehind : EndsWord (' ' :: ("null".toList ++ rest)) := rfl
  have hnull : (eatKeyword "null".toList).read (' ' :: ("null".toList ++ rest)) =
      some (true, rest) := by
    rw [(skipsFirst_eatKeyword _).read_space (word_null.settled hends),
      word_null.read_eatKeyword hends word_null, if_pos rfl]
  have hread : (readNot row).read (' ' :: ("null".toList ++ rest)) =
      some (({ row with shape.nullable := false }, []), rest) := by
    rw [readNot, read_bind, hnull]
    rfl
  rw [htext, word_not.read_clauseStep hbehind, all_eq, word_not.read_readFirst_this hbehind, hread,
    Option.map_some, List.append_nil]

theorem read_clause_null [Dangling] (hends : EndsWord rest) :
    (clauseStep (row, edits)).read ("null".toList ++ rest) =
      some (.inl ({ row with shape.nullable := true }, edits), rest) := by
  have hnot : ∀ lead ∈ ["not"], Word lead.toList ∧ foldLower "null".toList ≠ foldLower
    lead.toList :=
    List.forall_mem_singleton.mpr ⟨word_not, by decide⟩
  rw [word_null.read_clauseStep hends, all_eq, word_null.read_readFirst_other hends hnot,
    word_null.read_readFirst_this hends, readNull, read_pure, Option.map_some, List.append_nil]

theorem read_clause_default [Dangling] {text : Text} (h : Value text) (hrest : Closes rest) :
    (clauseStep (row, edits)).read ("default ".toList ++ (text ++ rest)) =
      some (.inl ({ row with defaultValue := some text }, edits), rest) := by
  have htext : "default ".toList ++ (text ++ rest) =
      "default".toList ++ (' ' :: (text ++ rest)) := rfl
  have hends : EndsWord (' ' :: (text ++ rest)) := rfl
  have hfirst : SkipsFirst value := skipsFirst_skipBlanks.bind _
  have hread : (readDefault row).read (' ' :: (text ++ rest)) =
      some (({ row with defaultValue := some text }, []), rest) := by
    rw [readDefault, read_bind, hfirst.read_space (h.again hrest).1, (h.again hrest).2]
    rfl
  have hnot : ∀ lead ∈ ["not"],
      Word lead.toList ∧ foldLower "default".toList ≠ foldLower lead.toList :=
    List.forall_mem_singleton.mpr ⟨word_not, by decide⟩
  have hnull : ∀ lead ∈ ["null"],
      Word lead.toList ∧ foldLower "default".toList ≠ foldLower lead.toList :=
    List.forall_mem_singleton.mpr ⟨word_null, by decide⟩
  rw [htext, word_default.read_clauseStep hends, all_eq, word_default.read_readFirst_other hends
    hnot,
    word_default.read_readFirst_other hends hnull, word_default.read_readFirst_this hends, hread,
    Option.map_some, List.append_nil]

/-- The default is the last that is said. -/
theorem read_defaultText [Dangling] {text : Option Text} (h : ∀ t, text = some t → Value t)
    (hnone : row.defaultValue = none) (hrest : Closes rest) :
    (loop clauseStep (row, edits)).read (defaultText text ++ rest) =
      some (edits ++ [.column { row with defaultValue := text }], rest) := by
  cases text with
  | none =>
    have hsame : { row with defaultValue := none } = row := by rw [← hnone]
    rw [hsame]
    exact read_loop_done (hrest.read_clauseStep (row, edits))
  | some text =>
    have hvalue := h text rfl
    have htext : defaultText (some text) ++ rest = ' ' :: ("default ".toList ++ (text ++ rest)) :=
      List.append_assoc ..
    have hsettled : Settled ("default ".toList ++ (text ++ rest)) :=
      settled_of_head rfl ⟨by decide, by decide⟩ (by decide) ("efault ".toList ++ (text ++ rest))
    have hstep : (clauseStep (row, edits)).read (' ' :: ("default ".toList ++ (text ++ rest))) =
        some (.inl ({ row with defaultValue := some text }, edits), rest) := by
      rw [(skipsFirst_clauseStep _).read_space hsettled, read_clause_default hvalue hrest]
    rw [htext]
    refine read_loop_step hstep ?_ (read_loop_done (hrest.read_clauseStep _))
    · simp only [List.length_cons, List.length_append]
      omega

end Clauses

theorem ends_defaultText (text : Option Text) {rest : Text} (hrest : Closes rest) :
    EndsWord (defaultText text ++ rest) := by
  cases text with
  | none => exact hrest.endsWord
  | some text => rfl

theorem saysNull_clausesText (row : ColumnRow) {rest : Text} (hrest : Closes rest) :
    SaysNull (clausesText row ++ rest) := by
  have hends := ends_defaultText row.defaultValue hrest
  rw [clausesText, List.append_assoc]
  cases row.shape.nullable with
  | false => exact ⟨"not", _, by decide, rfl, rfl⟩
  | true => exact ⟨"null", _, by decide, rfl, hends⟩

theorem reads_columnText [Dangling] {row : ColumnRow} (h : WritableColumn row) :
    Reads readColumnDef (columnText row) [.column row] where
  starts := (starts_delimited _).append _
  read {rest} hrest := by
    have htext : columnText row ++ rest = delimited .double row.shape.name ++
      (' ' :: (delimited .double row.typeName ++
        (sizeText row ++ ' ' :: (clausesText row ++ rest)))) := by
      simp only [columnText, List.append_assoc, List.cons_append]
    have hname := @read_identifier_quoted (' ' :: (delimited .double row.typeName ++
        (sizeText row ++ ' ' :: (clausesText row ++ rest)))) _ row.shape.name
      (show (some ' ' : Option Char) ≠ some '"' by decide)
    have hquoted : Settled (delimited .double row.typeName ++
        (sizeText row ++ ' ' :: (clausesText row ++ rest))) := settled_of_quoteStart rfl _
    have hfirst : ∀ fresh, SkipsFirst (readType fresh) := fun fresh =>
      ((skipsFirst_skipBlanks.bind _).bind _).bind _
    have hends := ends_defaultText row.defaultValue hrest
    obtain ⟨⟨name, type, nullable⟩, typeName, size, decimals, defaultValue⟩ := row
    obtain rfl : type = sqlTypeOf typeName := h.type
    rw [htext, readColumnDef_eq, read_bind, hname, Option.bind_some, read_bind,
      (hfirst _).read_space hquoted,
      read_type h.sized h.folded rfl rfl (saysNull_clausesText _ hrest), Option.bind_some,
      clausesText,
      List.append_assoc]
    cases nullable with
    | false =>
      refine read_loop_step (read_clause_not_null hends) ?_
        (@read_defaultText _ _ [] _ _ h.default rfl hrest)
      simp only [Bool.false_eq_true, if_false, List.length_append]
      exact Nat.lt_add_of_pos_left (Nat.succ_pos _)
    | true =>
      refine read_loop_step (read_clause_null hends) ?_
        (@read_defaultText _ _ [] _ _ h.default rfl hrest)
      simp only [if_true, List.length_append]
      exact Nat.lt_add_of_pos_left (Nat.succ_pos _)

end Uniorm.Ddl
