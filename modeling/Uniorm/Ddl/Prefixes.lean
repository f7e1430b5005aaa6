import Uniorm.Ddl.Effect
import Uniorm.Ddl.Target

/-! # The optional words in front of a name

CREATE TABLE, CREATE INDEX and ALTER TABLE take optional words in front of the
name they are about. The parser eats each of them where it stands next, in one
order of its own. Words that stand in that order leave no trace but the flag
that UNIQUE sets.
-/
namespace Uniorm.Ddl

open Foundation Foundation.Scan Sql Builder Schema

inductive Gap : Text → Prop
  | none : Gap []
  | space {c : Char} {text : Text} (hc : isSpace c = true) (h : Gap text) : Gap (c :: text)
  | line {opening inner text : Text} (hopen : opening = ['#'] ∨ opening = ['-', '-'])
      (hinner : '\n' ∉ inner) (h : Gap text) : Gap (opening ++ inner ++ '\n' :: text)
  | block {inner text : Text} (hinner : CommentRun inner) (h : Gap text) :
      Gap ('/' :: '*' :: (inner ++ text))

theorem Gap.read_skipBlanks {gap : Text} (h : Gap gap) (text : Text) :
    skipBlanks.read (gap ++ text) = skipBlanks.read text := by
  induction h with
  | none => rfl
  | space hc _ ih => rw [List.cons_append, read_skipBlanks_space hc, ih]
  | @line opening inner blank hopen hinner _ ih =>
    rw [List.append_assoc, List.cons_append, read_skipBlanks_line hopen hinner,
      read_skipBlanks_space rfl, ih]
  | block hinner _ ih =>
    rw [List.cons_append, List.cons_append, List.append_assoc, read_skipBlanks_block hinner, ih]

/-- The text begins with the words, in any case and with blanks between them; behind the last one
stands the rest. -/
inductive Spells : List Text → Text → Text → Prop
  | done (rest : Text) : Spells [] rest rest
  | word {w gap piece text rest : Text} {words : List Text} (hgap : Gap gap)
      (hpiece : foldLower piece = w) (hends : EndsWord text) (h : Spells words text rest) :
      Spells (w :: words) (gap ++ (piece ++ text)) rest

theorem Spells.split {front back : List Text} {text rest : Text} (h : Spells (front ++ back) text rest) :
    ∃ behind, Spells front text behind ∧ Spells back behind rest := by
  induction front generalizing text with
  | nil => exact ⟨text, .done text, h⟩
  | cons w front ih =>
    cases h with
    | word hgap hpiece hends h =>
      obtain ⟨behind, hfront, hback⟩ := ih h
      exact ⟨behind, .word hgap hpiece hends hfront, hback⟩

def NoneNext (words : List Text) (text : Text) : Prop :=
  ∀ settled, skipBlanks.read text = some ((), settled) → foldLower (wordOf settled) ∉ words

structure Keywords (words : List Text) : Prop where
  word : ∀ w ∈ words, Word w
  lower : ∀ w ∈ words, foldLower w = w
  nodup : words.Nodup

theorem keywords_of_all {words : List Text}
    (h : (words.all fun w => w.head?.any identStart && w.all identChar && foldLower w == w) = true)
    (hnodup : words.Nodup) : Keywords words := by
  have hall : ∀ w ∈ words, (w.head?.any identStart = true ∧ w.all identChar = true) ∧ foldLower w = w := by
    simpa only [List.all_eq_true, Bool.and_eq_true, beq_iff_eq] using h
  constructor
  · exact fun w hw => ⟨(hall w hw).1.1, (hall w hw).1.2⟩
  · exact fun w hw => (hall w hw).2
  · exact hnodup

theorem Keywords.tail {w : Text} {words : List Text} (h : Keywords (w :: words)) : Keywords words where
  word v hv := h.word v (List.mem_cons_of_mem w hv)
  lower v hv := h.lower v (List.mem_cons_of_mem w hv)
  nodup := (List.nodup_cons.mp h.nodup).2

/-- A scan to which the blanks in front make no difference at all. -/
def IgnoresBlanks {α : Type} (x : Reading α) : Prop :=
  ∀ text, x.read text = (skipBlanks.read text).bind fun r => x.read r.2

section Eaten
variable {α : Type} {x : Reading α}

theorem ignoresBlanks_skipBlanks : IgnoresBlanks skipBlanks := by
  intro text
  cases h : skipBlanks.read text with
  | none => rfl
  | some r => exact (settled_of_skipBlanks h).read_skipBlanks.symm

theorem IgnoresBlanks.bind {β : Type} (h : IgnoresBlanks x) (f : α → Reading β) :
    IgnoresBlanks (x >>= f) := by
  intro text
  rw [read_bind, h text, Option.bind_assoc]
  simp only [read_bind]

theorem ignoresBlanks_eatKeyword (word : Text) : IgnoresBlanks (eatKeyword word) :=
  (ignoresBlanks_skipBlanks.bind _).bind _

theorem ignoresBlanks_eatKeywords (hx : IgnoresBlanks x) (words : List Text) :
    IgnoresBlanks (eatKeywords words >>= fun _ => x) := by
  cases words with
  | nil => exact hx
  | cons w words => exact ((ignoresBlanks_eatKeyword w).bind _).bind _

theorem read_eatKeywords_cons (w : Text) (words : List Text) (text : Text) :
    (eatKeywords (w :: words) >>= fun _ => x).read text =
      (eatKeyword w >>= fun _ => eatKeywords words >>= fun _ => x).read text := by
  simp only [eatKeywords, read_bind, Option.bind_assoc]

theorem read_eatKeyword_other {k : Bool → Reading α} (hk : IgnoresBlanks (k false)) {word text : Text}
    (hword : Word word) (hlower : foldLower word = word) (hnone : NoneNext [word] text) :
    (eatKeyword word >>= k).read text = (k false).read text := by
  rw [(ignoresBlanks_eatKeyword word).bind k text, hk text]
  refine Option.bind_congr fun r hr => ?_
  have hother : foldLower (wordOf r.2) ≠ foldLower word := by
    rw [hlower]
    exact fun heq => hnone r.2 hr (List.mem_singleton.mpr heq)
  rw [read_bind, (settled_of_skipBlanks hr).read_eatKeyword hword, if_neg hother]
  rfl

theorem Spells.word_piece {w piece : Text} (hpiece : foldLower piece = w) (hw : Word w) : Word piece :=
  word_foldLower.mp (hpiece ▸ hw)

theorem read_skipBlanks_word {w gap piece text : Text} (hgap : Gap gap)
    (hpiece : foldLower piece = w) (hends : EndsWord text) (hw : Word w) :
    skipBlanks.read (gap ++ (piece ++ text)) = some ((), piece ++ text) ∧ wordOf (piece ++ text) =
      piece := by
  have hword : Word piece := Spells.word_piece hpiece hw
  rw [hgap.read_skipBlanks]
  exact ⟨(hword.settled hends).read_skipBlanks, wordOf_append hword hends⟩

theorem noneNext_word {w gap piece text : Text} {words : List Text} (hgap : Gap gap)
    (hpiece : foldLower piece = w) (hends : EndsWord text) (hw : Word w) (hnot : w ∉ words) :
    NoneNext words (gap ++ (piece ++ text)) := by
  obtain ⟨hskip, hof⟩ := read_skipBlanks_word hgap hpiece hends hw
  intro settled hsettled
  obtain ⟨-, rfl⟩ := Prod.mk.inj (Option.some.inj (hskip.symm.trans hsettled))
  rw [hof, hpiece]
  exact hnot

/-- The word that stands next is eaten. -/
theorem read_eatKeyword_this (k : Bool → Reading α) {w gap piece text : Text} (hgap : Gap gap)
    (hpiece : foldLower piece = w) (hends : EndsWord text) (hw : Word w) (hlower : foldLower w = w) :
    (eatKeyword w >>= k).read (gap ++ (piece ++ text)) = (k true).read text := by
  have hword : Word piece := Spells.word_piece hpiece hw
  obtain ⟨hskip, -⟩ := read_skipBlanks_word hgap hpiece hends hw
  rw [(ignoresBlanks_eatKeyword w).bind k, hskip, Option.bind_some, read_bind,
    hword.read_eatKeyword hends hw, hlower, if_pos hpiece]
  rfl

/-- Words that stand in the order in which they are looked for are eaten. -/
theorem Spells.read_eatKeywords (hx : IgnoresBlanks x) {us words : List Text} (hsub : us.Sublist words)
    (hkeys : Keywords words) {text rest : Text} (h : Spells us text rest) (hnone : NoneNext words rest) :
    (eatKeywords words >>= fun _ => x).read text = x.read rest := by
  induction hsub generalizing text with
  | slnil =>
    cases h
    rfl
  | @cons us words w hsub ih =>
    have hmore := ih hkeys.tail h fun settled hs hmem => hnone settled hs (List.mem_cons_of_mem w hmem)
    have hother : NoneNext [w] text := by
      cases h with
      | done =>
        intro settled hs hmem
        exact hnone settled hs (List.mem_singleton.mp hmem ▸ List.mem_cons_self)
      | @word u gap piece behind rest us hgap hpiece hends _ =>
        have hu : u ∈ words := hsub.subset List.mem_cons_self
        refine noneNext_word hgap hpiece hends (hkeys.word u (List.mem_cons_of_mem w hu)) ?_
        rw [List.mem_singleton]
        rintro rfl
        exact (List.nodup_cons.mp hkeys.nodup).1 hu
    rw [← hmore, read_eatKeywords_cons]
    exact read_eatKeyword_other (k := fun _ => eatKeywords words >>= fun _ => x)
      (ignoresBlanks_eatKeywords hx words) (hkeys.word w List.mem_cons_self)
      (hkeys.lower w List.mem_cons_self) hother
  | @cons_cons us words w hsub ih =>
    cases h with
    | word hgap hpiece hends h =>
      have hmore := ih hkeys.tail h fun settled hs hmem => hnone settled hs (List.mem_cons_of_mem w hmem)
      rw [← hmore, read_eatKeywords_cons]
      exact read_eatKeyword_this (fun _ => eatKeywords words >>= fun _ => x) hgap hpiece hends
        (hkeys.word w List.mem_cons_self) (hkeys.lower w List.mem_cons_self)

theorem Spells.read_alike (hx : IgnoresBlanks x) {us us' words : List Text} (hsub : us.Sublist words)
    (hsub' : us'.Sublist words) (hkeys : Keywords words) {text text' rest : Text} (h : Spells us text rest)
    (h' : Spells us' text' rest) (hnone : NoneNext words rest) :
    (eatKeywords words >>= fun _ => x).read text = (eatKeywords words >>= fun _ => x).read text' := by
  rw [h.read_eatKeywords hx hsub hkeys hnone, h'.read_eatKeywords hx hsub' hkeys hnone]

end Eaten

/-- A statement with optional words: for each place in front of the noun and behind it, the phrases
of which one may stand there. -/
structure Form where
  lead : Text
  front : List (List (List Text))
  noun : Text
  back : List (List (List Text))

def phrase (words : List String) : List Text := words.map String.toList

namespace Form

def createTable : Form where
  lead := "create".toList
  front := [[phrase ["or", "replace"]], [phrase ["global"], phrase ["local"]],
    [phrase ["temp"], phrase ["temporary"]], [phrase ["unlogged"]]]
  noun := "table".toList
  back := [[phrase ["if", "not", "exists"]]]

def createIndex : Form where
  lead := "create".toList
  front := [[phrase ["unique"]]]
  noun := "index".toList
  back := [[phrase ["concurrently"]], [phrase ["if", "not", "exists"]]]

def alterTable : Form where
  lead := "alter".toList
  front := []
  noun := "table".toList
  back := [[phrase ["if", "exists"]], [phrase ["only"]]]

def words (form : Form) (us vs : List Text) : List Text := form.lead :: (us ++ form.noun :: vs)

def backWords (form : Form) : List Text := form.back.flatten.flatten

end Form

def choices : List (List (List Text)) → List (List Text)
  | [] => [[]]
  | place :: places => ([] :: place).flatMap fun chosen => (choices places).map (chosen ++ ·)

/-- Words that SQL writes one way round and the parser looks for the other way round. -/
def misordered : List (Text × Text) :=
  [("global", "temp"), ("global", "temporary"), ("local", "temp"), ("local", "temporary"),
    ("exists", "only"), ("concurrently", "exists")].map fun pair => (pair.1.toList, pair.2.toList)

/-- No two of the words are looked for the other way round. -/
def InOrder (words : List Text) : Prop := ∀ pair ∈ misordered, ¬ (pair.1 ∈ words ∧ pair.2 ∈ words)

instance (words : List Text) : Decidable (InOrder words) :=
  inferInstanceAs (Decidable (∀ pair ∈ misordered, ¬ (pair.1 ∈ words ∧ pair.2 ∈ words)))

theorem InOrder.of_subset {words words' : List Text} (h : InOrder words') (hsub : words ⊆ words') :
    InOrder words := fun pair hpair hboth => h pair hpair ⟨hsub hboth.1, hsub hboth.2⟩

def alterWords : List Text := ["if", "only", "exists"].map String.toList

def indexWords : List Text := ifNotExists ++ ["concurrently".toList]

/-- What the lists of words say about their words is evaluated once. -/
theorem keywords_lists : ∀ words ∈ [creationWords, ifNotExists, alterWords, indexWords],
    (words.all fun w => w.head?.any identStart && w.all identChar && foldLower w == w) = true ∧
      words.Nodup := by decide

theorem keywords_creation : Keywords creationWords :=
  have h := keywords_lists creationWords (by simp)
  keywords_of_all h.1 h.2

theorem keywords_ifNotExists : Keywords ifNotExists :=
  have h := keywords_lists ifNotExists (by simp)
  keywords_of_all h.1 h.2

theorem keywords_alter : Keywords alterWords :=
  have h := keywords_lists alterWords (by simp)
  keywords_of_all h.1 h.2

theorem keywords_index : Keywords indexWords :=
  have h := keywords_lists indexWords (by simp)
  keywords_of_all h.1 h.2

theorem choices_sublist :
    (∀ us ∈ choices Form.createTable.front, InOrder us → us.Sublist creationWords) ∧
    (∀ vs ∈ choices Form.createTable.back, vs.Sublist ifNotExists) ∧
    (∀ vs ∈ choices Form.createIndex.back, InOrder vs → vs.Sublist indexWords) ∧
    ∀ vs ∈ choices Form.alterTable.back, InOrder vs → vs.Sublist alterWords := by decide

theorem createTable_front : ∀ us ∈ choices Form.createTable.front, InOrder us →
    us.Sublist creationWords := choices_sublist.1

theorem createTable_back : ∀ vs ∈ choices Form.createTable.back, vs.Sublist ifNotExists :=
  choices_sublist.2.1

theorem createIndex_back : ∀ vs ∈ choices Form.createIndex.back, InOrder vs → vs.Sublist indexWords :=
  choices_sublist.2.2.1

theorem alterTable_back : ∀ vs ∈ choices Form.alterTable.back, InOrder vs → vs.Sublist alterWords :=
  choices_sublist.2.2.2

section Read
variable {text text' rest : Text} (tables : List Text → Option Text)

theorem ignoresBlanks_tableName [Dangling] : IgnoresBlanks tableName :=
  ((ignoresBlanks_skipBlanks.bind _).bind _).bind _

theorem ignoresBlanks_identifier [Dangling] : IgnoresBlanks identifier := ignoresBlanks_skipBlanks.bind _

theorem ignoresBlanks_readStatement [Dangling] : IgnoresBlanks (readStatement tables) :=
  ((ignoresBlanks_skipBlanks.bind _).bind _).bind _

theorem Spells.behind {w : Text} {words : List Text} (h : Spells (w :: words) text rest) (hw : Word w) :
    ∃ settled behind, skipBlanks.read text = some ((), settled) ∧ settled.head? ≠ some ';' ∧
      foldLower (wordOf settled) = w ∧ settled.drop w.length = behind ∧ Spells words behind rest := by
  cases h with
  | @word _ gap piece behind _ _ hgap hpiece hends h =>
    have hword : Word piece := Spells.word_piece hpiece hw
    obtain ⟨hskip, hof⟩ := read_skipBlanks_word hgap hpiece hends hw
    refine ⟨piece ++ behind, behind, hskip, ?_, by rw [hof, hpiece], ?_, h⟩
    · obtain ⟨c, cs, rfl, hc⟩ := hword.eq_cons
      intro hhead
      obtain rfl := Option.some.inj hhead
      cases hc
    · rw [← hpiece, foldLower_length, List.drop_left]

theorem Spells.noneNext {w : Text} {words ws : List Text} (h : Spells (w :: words) text rest)
    (hw : Word w) (hnot : w ∉ ws) : NoneNext ws text := by
  cases h with
  | word hgap hpiece hends _ => exact noneNext_word hgap hpiece hends hw hnot

theorem Spells.read_create [Dangling] {words : List Text}
    (h : Spells ("create".toList :: words) text rest) :
    ∃ behind, Spells words behind rest ∧
      (readStatement tables).read text = readCreate.read behind := by
  obtain ⟨settled, behind, hskip, hsemi, hword, rfl, hmore⟩ := h.behind word_create
  have hthis : foldLower (wordOf settled) = foldLower "create".toList := hword
  refine ⟨_, hmore, ?_⟩
  rw [ignoresBlanks_readStatement tables text, hskip, Option.bind_some,
    (settled_of_skipBlanks hskip).read_readStatement, if_neg hsemi, if_pos hthis]

theorem Spells.read_alter [Dangling] {words : List Text} (h : Spells ("alter".toList :: words) text rest) :
    ∃ behind, Spells words behind rest ∧
      (readStatement tables).read text = (readAlter tables).read behind := by
  obtain ⟨settled, behind, hskip, hsemi, hword, rfl, hmore⟩ := h.behind word_alter
  have hother : ¬ foldLower (wordOf settled) = foldLower "create".toList := by
    rw [hword]
    decide
  have hthis : foldLower (wordOf settled) = foldLower "alter".toList := hword
  refine ⟨_, hmore, ?_⟩
  rw [ignoresBlanks_readStatement tables text, hskip, Option.bind_some,
    (settled_of_skipBlanks hskip).read_readStatement, if_neg hsemi, if_neg hother, if_pos hthis]

theorem word_table : Word "table".toList := ⟨rfl, rfl⟩

theorem word_index : Word "index".toList := ⟨rfl, rfl⟩

theorem word_unique : Word "unique".toList := ⟨rfl, rfl⟩

/-- The word that stands next is eaten. -/
theorem Spells.read_this {α : Type} {w : Text} {words : List Text} (h : Spells (w :: words) text rest)
    (hw : Word w) (hlower : foldLower w = w) (k : Bool → Reading α) :
    ∃ behind, Spells words behind rest ∧ (eatKeyword w >>= k).read text = (k true).read behind := by
  cases h with
  | @word _ gap piece behind _ _ hgap hpiece hends h =>
    exact ⟨behind, h, read_eatKeyword_this k hgap hpiece hends hw hlower⟩

theorem Spells.read_table [Dangling] {us vs : List Text} (hsub : us.Sublist creationWords)
    (h : Spells (us ++ "table".toList :: vs) text rest) :
    ∃ behind, Spells vs behind rest ∧ readCreate.read text = readCreateTable.read behind := by
  obtain ⟨mid, hfront, hback⟩ := h.split
  have hnone : NoneNext creationWords mid := hback.noneNext word_table (by decide)
  rw [readCreate,
    hfront.read_eatKeywords ((ignoresBlanks_eatKeyword _).bind _) hsub keywords_creation hnone]
  exact hback.read_this word_table rfl _

theorem Spells.read_index [Dangling] {us vs : List Text} (hus : us ∈ choices Form.createIndex.front)
    (h : Spells (us ++ "index".toList :: vs) text rest) : ∃ behind, Spells vs behind rest ∧
      readCreate.read text = (readCreateIndex (decide ("unique".toList ∈ us))).read behind := by
  have hall : ∀ us ∈ choices Form.createIndex.front, us = [] ∨ us = ["unique".toList] := by decide
  have hcases := hall us hus
  have hnone : ∀ ws, "unique".toList ∉ ws → "index".toList ∉ ws → NoneNext ws text := by
    intro ws hunique hindex
    rcases hcases with rfl | rfl
    · exact h.noneNext word_index hindex
    · exact h.noneNext word_unique hunique
  rw [readCreate, (Spells.done text).read_eatKeywords ((ignoresBlanks_eatKeyword _).bind _)
    (List.nil_sublist _) keywords_creation (hnone _ (by decide) (by decide)),
    read_eatKeyword_other ((ignoresBlanks_eatKeyword "unique".toList).bind _) word_table rfl
      (hnone _ (by decide) (by decide))]
  change ∃ behind, _ ∧ (eatKeyword "unique".toList >>= _).read text = _
  rcases hcases with rfl | rfl
  · rw [read_eatKeyword_other ((ignoresBlanks_eatKeyword "index".toList).bind _) word_unique rfl
      (h.noneNext word_index (by decide))]
    exact h.read_this word_index rfl _
  · obtain ⟨behind, hbehind, hread⟩ := h.read_this word_unique rfl _
    rw [hread]
    exact hbehind.read_this word_index rfl _

variable {us us' vs vs' : List Text}

omit tables in
theorem readCreateTable_alike [Dangling] (hsub : vs.Sublist ifNotExists) (hsub' : vs'.Sublist ifNotExists)
    (h : Spells vs text rest) (h' : Spells vs' text' rest) (hnone : NoneNext ifNotExists rest) :
    readCreateTable.read text = readCreateTable.read text' := by
  exact h.read_alike (ignoresBlanks_tableName.bind _) hsub hsub' keywords_ifNotExists h' hnone

omit tables in
theorem readCreateIndex_alike [Dangling] (unique : Bool) (hsub : vs.Sublist indexWords)
    (hsub' : vs'.Sublist indexWords) (h : Spells vs text rest) (h' : Spells vs' text' rest)
    (hnone : NoneNext indexWords rest) :
    (readCreateIndex unique).read text = (readCreateIndex unique).read text' := by
  exact h.read_alike (ignoresBlanks_identifier.bind _) hsub hsub' keywords_index h' hnone

theorem readAlter_alike [Dangling] (hsub : vs.Sublist alterWords) (hsub' : vs'.Sublist alterWords)
    (h : Spells ("table".toList :: vs) text rest) (h' : Spells ("table".toList :: vs') text' rest)
    (hnone : NoneNext alterWords rest) : (readAlter tables).read text = (readAlter tables).read text' := by
  rw [readAlter]
  obtain ⟨behind, hbehind, hread⟩ := h.read_this word_table rfl _
  obtain ⟨behind', hbehind', hread'⟩ := h'.read_this word_table rfl _
  rw [hread, hread']
  exact hbehind.read_alike (ignoresBlanks_tableName.bind _) hsub hsub' keywords_alter hbehind' hnone

end Read

def Command.asUnique : Command → Command
  | .createIndex name parts columns _ => .createIndex name parts columns true
  | command => command

theorem read_readCreateIndex_unique [Dangling] (text : Text) : (readCreateIndex true).read text =
    ((readCreateIndex false).read text).map fun r => (r.1.asUnique, r.2) := by
  simp only [readCreateIndex, read_bind, Option.map_eq_bind, Option.bind_assoc]
  refine Option.bind_congr fun r₁ _ => ?_
  refine Option.bind_congr fun r₂ _ => ?_
  refine Option.bind_congr fun r₃ _ => ?_
  cases r₃.1 with
  | false => rfl
  | true =>
    simp only [Bool.not_true, Bool.false_eq_true, if_false, read_bind, Option.bind_assoc]
    refine Option.bind_congr fun r₄ _ => ?_
    refine Option.bind_congr fun r₅ _ => ?_
    cases r₅.1 with
    | false => simp [Option.bind_assoc, Command.asUnique]
    | true => simp [Option.bind_assoc, Command.asUnique]

def DdlTable.markUnique (k : ℕ) (table : DdlTable) : DdlTable :=
  { table with indexes := table.indexes.modify k fun row => { row with unique := true } }

def DdlSnapshot.markUnique (slot k : ℕ) (out : DdlSnapshot) : DdlSnapshot :=
  { out with tables := out.tables.modify slot (DdlTable.markUnique k) }

theorem markUnique_keyed (k : ℕ) (table : DdlTable) : (table.markUnique k).keyed = table.keyed := rfl

theorem Edit.onTable_markUnique (e : Edit) {table : DdlTable} {k : ℕ} (hk : k < table.indexes.length) :
    e.onTable (table.markUnique k) = (e.onTable table).markUnique k ∧
      k < (e.onTable table).indexes.length := by
  cases e with
  | key name =>
    have hkey : (table.markUnique k).primaryKey.contains name = table.primaryKey.contains name := rfl
    constructor
    · change markKey _ _ = (markKey _ _).markUnique k
      rw [markKey, markKey, hkey]
      split_ifs <;> rfl
    · change k < (markKey _ _).indexes.length
      rw [markKey]
      split_ifs <;> exact hk
  | index row =>
    constructor
    · exact congrArg (fun indexes => { table with indexes }) (modify_append_left _ hk [row]).symm
    · exact Nat.lt_of_lt_of_le hk (List.length_append ▸ Nat.le_add_right _ _)
  | _ => exact ⟨rfl, hk⟩

theorem onTable_markUnique (items : List Edit) {table : DdlTable} {k : ℕ}
    (hk : k < table.indexes.length) :
    onTable items (table.markUnique k) = (onTable items table).markUnique k ∧
      k < (onTable items table).indexes.length := by
  induction items generalizing table with
  | nil => exact ⟨rfl, hk⟩
  | cons e items ih =>
    obtain ⟨hsame, hlt⟩ := e.onTable_markUnique hk
    obtain ⟨hrest, hlast⟩ := ih hlt
    refine ⟨?_, hlast⟩
    change onTable items (e.onTable (table.markUnique k)) = _
    rw [hsame]
    exact hrest

/-- What a command does to a table leaves the flag where it is, or makes the table anew. -/
theorem Command.effect_markUnique {command : Command} {e : Effect} (h : command.effect = some e) :
    (∃ made, ∀ table, e.table table = made) ∨ ∀ {table : DdlTable} {k : ℕ}, k < table.indexes.length →
      e.table (table.markUnique k) = (e.table table).markUnique k ∧
        k < (e.table table).indexes.length := by
  cases command with
  | createTable parts items =>
    obtain rfl := Option.some.inj h
    exact .inl ⟨_, fun _ => rfl⟩
  | createIndex name parts columns unique =>
    obtain rfl := Option.some.inj h
    exact .inr fun hk => (Edit.index ⟨indexName name columns "index".toList, columns, unique⟩)
      |>.onTable_markUnique hk
  | alter parts items =>
    obtain rfl := Option.some.inj h
    exact .inr fun hk => onTable_markUnique items hk
  | _ => cases h

namespace Content

inductive Marked (content : Content) : Content → Prop
  | same : Marked content content
  | index {slot k : ℕ} {table : DdlTable} (htable : content.out.tables[slot]? = some table)
      (hk : k < table.indexes.length) : Marked content (content.modifyTable slot (DdlTable.markUnique k))

variable {content content' : Content}

theorem keyed_modifyTable (slot k : ℕ) :
    (content.modifyTable slot (DdlTable.markUnique k)).out.tables.map DdlTable.keyed =
      content.out.tables.map DdlTable.keyed := by
  refine List.ext_getElem? fun n => ?_
  rw [List.getElem?_map, List.getElem?_map, modifyTable, List.getElem?_modify]
  cases content.out.tables[n]? with
  | none => rfl
  | some table =>
    by_cases hn : slot = n
    · simp [hn, markUnique_keyed]
    · simp [hn]

theorem Marked.keyed (h : Marked content content') :
    content'.out.tables.map DdlTable.keyed = content.out.tables.map DdlTable.keyed := by
  cases h with
  | same => rfl
  | index => exact keyed_modifyTable _ _

theorem Marked.findTable (h : Marked content content') (parts : List Text) :
    Ddl.findTable content'.out.tables parts = Ddl.findTable content.out.tables parts := by
  rw [← findTable_keyed, h.keyed, findTable_keyed]

theorem Marked.spelling (h : Marked content content') (parts : List Text) :
    content'.spelling parts = content.spelling parts := by
  have hnames : ∀ content : Content, content.spelling parts =
      (Ddl.findTable content.out.tables parts).bind fun slot =>
        ((content.out.tables.map DdlTable.keyed)[slot]?).map fun table => table.ref.name :=
          fun content => by
    rw [Content.spelling]
    refine Option.bind_congr fun slot _ => ?_
    rw [List.getElem?_map, Option.map_map]
    rfl
  rw [hnames, hnames, h.keyed, h.findTable]

theorem Marked.change {slot k : ℕ} {table : DdlTable} (htable : content.out.tables[slot]? = some table)
    (hk : k < table.indexes.length) {command : Command} {e : Effect} (he : command.effect = some e)
    (other : ℕ) : Marked (content.change other e.table e.waits)
      ((content.modifyTable slot (DdlTable.markUnique k)).change other e.table e.waits) := by
  by_cases hother : slot = other
  · subst hother
    have hthere : (content.change slot e.table e.waits).out.tables[slot]? = some (e.table table) := by
      simp [Content.change, htable]
    rcases Command.effect_markUnique he with ⟨made, hmade⟩ | hkeeps
    · have hsame : (content.modifyTable slot (DdlTable.markUnique k)).change slot e.table e.waits =
          content.change slot e.table e.waits := by
        have hconst : e.table ∘ DdlTable.markUnique k = e.table :=
          funext fun table => (hmade _).trans (hmade table).symm
        simp only [Content.change, modifyTable, List.modify_modify_eq, hconst]
      rw [hsame]
      exact .same
    · obtain ⟨hcommute, hlt⟩ := hkeeps hk
      have hmark := Marked.index hthere hlt
      have hsame : (content.change slot e.table e.waits).modifyTable slot (DdlTable.markUnique k) =
          (content.modifyTable slot (DdlTable.markUnique k)).change slot e.table e.waits := by
        have hmodify : content.out.tables.modify slot (DdlTable.markUnique k ∘ e.table) =
            content.out.tables.modify slot (e.table ∘ DdlTable.markUnique k) :=
          modify_congr htable hcommute.symm
        simp only [Content.change, modifyTable, List.modify_modify_eq, hmodify]
      rw [← hsame]
      exact hmark
  · have hthere : (content.change other e.table e.waits).out.tables[slot]? = some table := by
      simp [Content.change, htable, Ne.symm hother]
    have hmark := Marked.index hthere hk
    have hsame : (content.change other e.table e.waits).modifyTable slot (DdlTable.markUnique k) =
        (content.modifyTable slot (DdlTable.markUnique k)).change other e.table e.waits := by
      simp only [Content.change, modifyTable, List.modify_modify_ne _ _ _ hother]
    rw [← hsame]
    exact hmark

/-- Every command says the same of both. -/
theorem Marked.apply (h : Marked content content') (command : Command) :
    Marked (content.apply command) (content'.apply command) := by
  have hfind := h.findTable
  cases h with
  | same => exact .same
  | @index slot k table htable hk =>
    have hslot : slot < content.out.tables.length := (List.getElem?_eq_some_iff.mp htable).1
    cases heffect : command.effect with
    | none =>
      cases command with
      | createTable => cases heffect
      | createIndex => cases heffect
      | alter => cases heffect
      | _ => exact @Marked.index (content.apply _) slot k table htable hk
    | some e =>
      rw [apply_eq_carry heffect, apply_eq_carry heffect, carry, carry, hfind]
      cases Ddl.findTable content.out.tables e.parts with
      | none =>
        by_cases hcreates : e.creates = true
        · have hthere : (content.out.tables ++ [e.table (freshTable e.parts)])[slot]? = some table := by
            rw [List.getElem?_append_left hslot]
            exact htable
          have hmark := @Marked.index { content with
            out.tables := content.out.tables ++ [e.table (freshTable e.parts)]
            pending := content.pending ++ waiting content.out.tables.length e.waits } slot k table hthere hk
          simp only [if_pos hcreates]
          simp only [modifyTable, modify_append_left _ hslot] at hmark
          simp only [modifyTable, List.length_modify]
          exact hmark
        · simp only [if_neg hcreates]
          exact .index htable hk
      | some other => exact Marked.change htable hk heffect other

theorem resolvePendingKey_eq (out : DdlSnapshot) (key : PendingKey) : resolvePendingKey out key =
    { out with tables := out.tables.modify key.owner fun table => table.withRows (keyRows out key) } := by
  rw [← resolvePendingKey_tables, resolvePendingKey]
  cases key.targetIn out <;> rfl

theorem keyed_markUnique (out : DdlSnapshot) (slot k : ℕ) :
    (out.markUnique slot k).tables.map DdlTable.keyed = out.tables.map DdlTable.keyed :=
  @keyed_modifyTable ⟨out, []⟩ slot k

theorem resolvePendingKeys_markUnique (out : DdlSnapshot) (pending : List PendingKey) (slot k : ℕ) :
    resolvePendingKeys (out.markUnique slot k) pending =
      (resolvePendingKeys out pending).markUnique slot k := by
  rw [resolvePendingKeys, resolvePendingKeys]
  induction pending generalizing out with
  | nil => rfl
  | cons key pending ih =>
    have hstep : resolvePendingKey (out.markUnique slot k) key =
        (resolvePendingKey out key).markUnique slot k := by
      rw [resolvePendingKey_eq, resolvePendingKey_eq, keyRows_keyed (keyed_markUnique out slot k)]
      have hmodify := modify_comm (f := DdlTable.markUnique k)
        (g := fun table => table.withRows (keyRows out key)) (fun _ => rfl) out.tables slot key.owner
      exact congrArg (fun tables => { out with tables }) hmodify
    rw [List.foldl_cons, List.foldl_cons, hstep]
    exact ih _

theorem Marked.finish (h : Marked content content') :
    ∃ slot k, content'.finish = content.finish.markUnique slot k := by
  cases h with
  | same =>
    refine ⟨content.finish.tables.length, 0, ?_⟩
    rw [DdlSnapshot.markUnique, List.modify_eq_self (Nat.le_refl _)]
  | @index slot k => exact ⟨slot, k, resolvePendingKeys_markUnique _ _ slot k⟩

/-- What is said from there on differs in the flag of one index at most. -/
theorem Marked.schemaFrom [Dangling] (h : Marked content content') (text : Text) : ∃ slot k,
    Ddl.schemaFrom content' text = (Ddl.schemaFrom content text).map (DdlSnapshot.markUnique slot k) := by
  have hspelling : ∀ {content content' : Content}, Marked content content' →
      content'.spelling = content.spelling := fun h => funext h.spelling
  have hrelated := related_schemaFrom hspelling Marked.apply h text
  revert hrelated
  generalize Ddl.schemaFrom content text = out, Ddl.schemaFrom content' text = out'
  rintro (_ | hend)
  · exact ⟨0, 0, rfl⟩
  · obtain ⟨slot, k, hfinish⟩ := hend.finish
    exact ⟨slot, k, congrArg some hfinish⟩

end Content

section Statement
variable {text plain rest : Text}

theorem Spells.schemaFrom [Dangling] {w : Text} {words : List Text}
    (h : Spells (w :: words) text rest) (hw : Word w)
    (content : Content) : schemaFrom content text =
      ((readStatement content.spelling).read text).bind fun q => schemaFrom (content.apply q.1) q.2 := by
  obtain ⟨settled, behind, hskip, -, hword, -, -⟩ := h.behind hw
  have hne : ¬ settled = [] := by
    rintro rfl
    have hempty := Spells.word_piece hword hw
    cases hempty.start
  rw [Ddl.schemaFrom_eq, ignoresBlanks_readStatement content.spelling text, hskip, Option.bind_some,
    Option.bind_some, if_neg hne]

theorem NoneNext.of_subset {words words' : List Text} (h : NoneNext words' rest) (hsub : words ⊆ words') :
    NoneNext words rest := fun settled hs hmem => h settled hs (hsub hmem)

variable (content : Content) {us vs : List Text}

theorem createTable_same [Dangling] (hus : us ∈ choices Form.createTable.front)
    (hvs : vs ∈ choices Form.createTable.back)
    (horder : InOrder us) (htext : Spells (Form.createTable.words us vs) text rest)
    (hplain : Spells (Form.createTable.words [] []) plain rest)
    (hname : NoneNext Form.createTable.backWords rest) : schemaFrom content text =
      schemaFrom content plain := by
  obtain ⟨behind, hbehind, hread⟩ := htext.read_create content.spelling
  obtain ⟨behind', hbehind', hread'⟩ := hplain.read_create content.spelling
  obtain ⟨named, hnamed, htable⟩ := hbehind.read_table (createTable_front us hus horder)
  obtain ⟨named', hnamed', htable'⟩ := hbehind'.read_table (List.nil_sublist creationWords)
  have hnone : NoneNext ifNotExists rest := hname.of_subset (by decide)
  rw [htext.schemaFrom word_create, hplain.schemaFrom word_create, hread, hread', htable, htable',
    readCreateTable_alike (createTable_back vs hvs) (List.nil_sublist _) hnamed hnamed' hnone]

theorem alterTable_same [Dangling] (hus : us ∈ choices Form.alterTable.front)
    (hvs : vs ∈ choices Form.alterTable.back)
    (horder : InOrder vs) (htext : Spells (Form.alterTable.words us vs) text rest)
    (hplain : Spells (Form.alterTable.words [] []) plain rest)
    (hname : NoneNext Form.alterTable.backWords rest) : schemaFrom content text =
      schemaFrom content plain := by
  obtain rfl : us = [] := List.mem_singleton.mp hus
  obtain ⟨behind, hbehind, hread⟩ := htext.read_alter content.spelling
  obtain ⟨behind', hbehind', hread'⟩ := hplain.read_alter content.spelling
  have hnone : NoneNext alterWords rest := hname.of_subset (by decide)
  rw [htext.schemaFrom word_alter, hplain.schemaFrom word_alter, hread, hread',
    readAlter_alike content.spelling (alterTable_back vs hvs horder) (List.nil_sublist _) hbehind hbehind'
      hnone]

omit content in
theorem edit_marked (content : Content) {slot : ℕ} {table : DdlTable}
    (htable : content.out.tables[slot]? = some table) (row : IndexRow) :
    (content.edit slot (.index row)).Marked (content.edit slot (.index { row with unique := true })) := by
  have hthere : (content.edit slot (.index row)).out.tables[slot]? =
      some { table with indexes := table.indexes ++ [row] } := by
    simp [Content.edit, Content.modifyTable, htable]
  have hmark := Content.Marked.index (k := table.indexes.length) hthere (by simp)
  have hsame :
      (content.edit slot (.index row)).modifyTable slot (DdlTable.markUnique table.indexes.length) =
      content.edit slot (.index { row with unique := true }) := by
    have hmodify := modify_congr htable
      (f := DdlTable.markUnique table.indexes.length ∘ (Edit.index row).onTable)
      (g := (Edit.index { row with unique := true }).onTable)
      (congrArg (fun indexes => { table with indexes })
        (modify_length_append _ table.indexes row))
    rw [← List.modify_modify_eq] at hmodify
    exact congrArg (fun tables => { content with out.tables := tables }) hmodify
  rw [← hsame]
  exact hmark

/-- The index of the statement is said to be unique, or nothing is. -/
theorem apply_asUnique (command : Command) :
    (content.apply command).Marked (content.apply command.asUnique) := by
  cases command with
  | createIndex name parts columns unique =>
    rw [Command.asUnique, Content.apply, Content.apply]
    cases hfound : findTable content.out.tables parts with
    | none => exact .same
    | some slot =>
      have hslot : slot < content.out.tables.length := (List.findIdx?_eq_some_iff_findIdx_eq.mp hfound).1
      exact edit_marked content (List.getElem?_eq_getElem hslot) _
  | _ => exact .same

theorem createIndex_same [Dangling] (hus : us ∈ choices Form.createIndex.front)
    (hvs : vs ∈ choices Form.createIndex.back) (horder : InOrder vs)
    (htext : Spells (Form.createIndex.words us vs) text rest)
    (hplain : Spells (Form.createIndex.words [] []) plain rest)
    (hname : NoneNext Form.createIndex.backWords rest) :
    ("unique".toList ∉ us → schemaFrom content text = schemaFrom content plain) ∧
      ("unique".toList ∈ us → ∃ slot k,
        schemaFrom content text = (schemaFrom content plain).map (DdlSnapshot.markUnique slot k)) := by
  obtain ⟨behind, hbehind, hread⟩ := htext.read_create content.spelling
  obtain ⟨behind', hbehind', hread'⟩ := hplain.read_create content.spelling
  obtain ⟨named, hnamed, hindex⟩ := hbehind.read_index hus
  obtain ⟨named', hnamed', hindex'⟩ := @Spells.read_index _ _ _ [] _ List.mem_cons_self hbehind'
  have hnone : NoneNext indexWords rest := hname.of_subset (by decide)
  have hsame : ∀ unique, (readCreateIndex unique).read named = (readCreateIndex unique).read named' :=
    fun unique => readCreateIndex_alike unique (createIndex_back vs hvs horder) (List.nil_sublist _)
      hnamed hnamed' hnone
  have hnot : decide ("unique".toList ∈ ([] : List Text)) = false := rfl
  rw [htext.schemaFrom word_create, hplain.schemaFrom word_create, hread, hread', hindex, hindex', hsame,
    hnot]
  constructor
  · intro hunique
    rw [decide_eq_false hunique]
  · intro hunique
    rw [decide_eq_true hunique, read_readCreateIndex_unique]
    cases (readCreateIndex false).read named' with
    | none => exact ⟨0, 0, rfl⟩
    | some q => exact (apply_asUnique content q.1).schemaFrom q.2

end Statement

def forms : List Form := [.createTable, .createIndex, .alterTable]

/-- In every statement the optional words, in any case and in every combination that is in order for
the parser, lead to the snapshot of the statement without them; only UNIQUE says of one index that it
is unique. -/
theorem optional_words_neutral [Dangling] {s : Text} {content : Content} (hs : Says s content) {form : Form}
    (hform : form ∈ forms) {us vs : List Text} (hus : us ∈ choices form.front)
    (hvs : vs ∈ choices form.back) (horder : InOrder (us ++ vs)) {text plain rest : Text}
    (htext : Spells (form.words us vs) text rest) (hplain : Spells (form.words [] []) plain rest)
    (hname : NoneNext form.backWords rest) :
    ("unique".toList ∉ us → schemaOf (s ++ text) = schemaOf (s ++ plain)) ∧
      ("unique".toList ∈ us → ∃ slot k,
        schemaOf (s ++ text) = (schemaOf (s ++ plain)).map (DdlSnapshot.markUnique slot k)) := by
  have hfront : InOrder us := horder.of_subset (List.subset_append_left us vs)
  have hback : InOrder vs := horder.of_subset (List.subset_append_right us vs)
  rw [hs, hs]
  simp only [forms, List.mem_cons, List.not_mem_nil, or_false] at hform
  rcases hform with rfl | rfl | rfl
  · have hno : ∀ us ∈ choices Form.createTable.front, "unique".toList ∉ us := by decide
    exact ⟨fun _ => createTable_same content hus hvs hfront htext hplain hname,
      fun hunique => absurd hunique (hno us hus)⟩
  · exact createIndex_same content hus hvs hback htext hplain hname
  · have hno : ∀ us ∈ choices Form.alterTable.front, "unique".toList ∉ us := by decide
    exact ⟨fun _ => alterTable_same content hus hvs hback htext hplain hname,
      fun hunique => absurd hunique (hno us hus)⟩

section Small
attribute [local instance] Dangling.small

/-- `create temp table if not exists t (a int)`, as it is read without the optional words. -/
theorem temp_table_neutral : schemaOf "create Temp table IF not exists t (a int)".toList =
    schemaOf "create table t (a int)".toList := by
  have hrest : Spells [] " t (a int)".toList " t (a int)".toList := .done _
  have hblank : Gap " ".toList := .space rfl .none
  have hback : Spells (phrase ["if", "not", "exists"]) " IF not exists t (a int)".toList
      " t (a int)".toList := by
    refine @Spells.word _ " ".toList "IF".toList " not exists t (a int)".toList _ _ hblank rfl rfl ?_
    refine @Spells.word _ " ".toList "not".toList " exists t (a int)".toList _ _ hblank rfl rfl ?_
    exact @Spells.word _ " ".toList "exists".toList " t (a int)".toList _ _ hblank rfl rfl hrest
  have htext : Spells (Form.createTable.words (phrase ["temp"]) (phrase ["if", "not", "exists"]))
      "create Temp table IF not exists t (a int)".toList " t (a int)".toList := by
    refine @Spells.word _ [] "create".toList " Temp table IF not exists t (a int)".toList _ _ .none
      rfl rfl ?_
    refine @Spells.word _ " ".toList "Temp".toList " table IF not exists t (a int)".toList _ _
      hblank rfl rfl ?_
    exact @Spells.word _ " ".toList "table".toList " IF not exists t (a int)".toList _ _ hblank rfl
      rfl hback
  have hplain : Spells (Form.createTable.words [] []) "create table t (a int)".toList
      " t (a int)".toList := by
    refine @Spells.word _ [] "create".toList " table t (a int)".toList _ _ .none rfl rfl ?_
    exact @Spells.word _ " ".toList "table".toList " t (a int)".toList _ _ hblank rfl rfl hrest
  have hname : NoneNext Form.createTable.backWords " t (a int)".toList := by
    intro settled hskip
    have hread : skipBlanks.read " t (a int)".toList = some ((), "t (a int)".toList) := rfl
    obtain ⟨-, rfl⟩ := Prod.mk.inj (Option.some.inj (hread.symm.trans hskip))
    decide
  have hneutral := optional_words_neutral (s := []) (fun r => schemaOf_eq r) List.mem_cons_self (by decide)
    (by decide) (by decide) htext hplain hname
  exact hneutral.1 (by decide)

/-- UNIQUE shows in the snapshot; so do words in an order that is not the parser's, and a name that is
one of the words. -/
theorem optional_words_show :
    schemaOf "create table t (primary key (a)); create unique index i on t (a)".toList ≠
      schemaOf "create table t (primary key (a)); create index i on t (a)".toList ∧
    schemaOf "create table if not exists exists (primary key (a))".toList ≠
      schemaOf "create table exists (primary key (a))".toList ∧
    schemaOf "create global temp table t (primary key (a))".toList ≠
      schemaOf "create table t (primary key (a))".toList ∧
    schemaOf "create table t (primary key (a)); alter table if exists only t add primary key (b)".toList ≠
      schemaOf "create table t (primary key (a)); alter table t add primary key (b)".toList ∧
    schemaOf "create table t (primary key (a)); create index concurrently if not exists i on t (a)".toList ≠
      schemaOf "create table t (primary key (a)); create index i on t (a)".toList := by
  -- what is compared is as little as shows the difference
  refine ⟨fun h => ?_, fun h => ?_, fun h => ?_, fun h => ?_, fun h => ?_⟩
  · have hflags := congrArg (Option.map fun out => out.tables.map fun table =>
      table.indexes.map IndexRow.unique) h
    revert hflags
    decide
  · have hends := congrArg Option.isSome h
    revert hends
    decide
  · have hcount := congrArg (Option.map fun out => out.tables.length) h
    revert hcount
    decide
  · have hkeys := congrArg (Option.map fun out => out.tables.map fun table => table.primaryKey.length) h
    revert hkeys
    decide
  · have hends := congrArg Option.isSome h
    revert hends
    decide

end Small

end Uniorm.Ddl
