import Uniorm.Ddl.Neutral

/-! # Routine bodies

The body of a routine is a block whose statements end with `;`. Its end is found
by counting BEGIN and END, and END closes more than BEGIN opens: `Nested` is
what a body is, `QuietPieces` and `Leaks` are what becomes of it when it is cut
where the count is zero.
-/
namespace Uniorm.Ddl

open Foundation Foundation.Scan Sql Builder Schema

def Lexeme.Is (l : Lexeme) (word : String) : Prop := foldLower l.wordText = word.toList

instance (l : Lexeme) (word : String) : Decidable (l.Is word) :=
  inferInstanceAs (Decidable (foldLower l.wordText = word.toList))

def controlWords : List String := ["if", "loop", "case", "while", "repeat", "for"]

inductive Nested : List Lexeme → Prop where
  | nil : Nested []
  | plain {l : Lexeme} {ls : List Lexeme} (hbegin : ¬ l.Is "begin") (hend : ¬ l.Is "end")
    (hopen : l ≠ .char '(') (hclose : l ≠ .char ')') (h : Nested ls) : Nested (l :: ls)
  | parens {inner ls : List Lexeme} (hinner : Nested inner) (h : Nested ls) :
    Nested (.char '(' :: (inner ++ .char ')' :: ls))
  | block {b e : Lexeme} {inner ls : List Lexeme} (hb : b.Is "begin") (he : e.Is "end")
    (hinner : Nested inner) (h : Nested ls) : Nested (b :: (inner ++ e :: ls))
  /-- IF ... END IF and the like. -/
  | control {word : String} {k e k' : Lexeme} {inner ls : List Lexeme} (hword : word ∈ controlWords)
    (hk : k.Is word) (he : e.Is "end") (hk' : k'.Is word) (hinner : Nested inner) (h : Nested ls) :
    Nested (k :: (inner ++ e :: k' :: ls))
  /-- A CASE expression. -/
  | choice {k e : Lexeme} {inner ls : List Lexeme} (hk : k.Is "case") (he : e.Is "end")
    (hinner : Nested inner) (h : Nested ls) : Nested (k :: (inner ++ e :: ls))

/-- Counting over the lexemes, and over all of them from any place on, leaves no depth above the
one it started with. -/
inductive Closing : List Lexeme → Prop where
  | nil : Closing []
  | cons {l : Lexeme} {ls : List Lexeme}
    (hdepth : ∀ d : Depth, (d.lexemes (l :: ls)).parens ≤ d.parens ∧
      (d.lexemes (l :: ls)).blocks ≤ d.blocks)
    (h : Closing ls) : Closing (l :: ls)

namespace Closing
variable {ls ls' : List Lexeme}

theorem depth (h : Closing ls) (d : Depth) :
    (d.lexemes ls).parens ≤ d.parens ∧ (d.lexemes ls).blocks ≤ d.blocks := by
  cases h with
  | nil => exact ⟨le_refl _, le_refl _⟩
  | cons hdepth _ => exact hdepth d

theorem lexemes_eq (h : Closing ls) : Depth.lexemes {} ls = {} := by
  obtain ⟨hparens, hblocks⟩ := h.depth {}
  rcases hlexemes : Depth.lexemes {} ls with ⟨parens, blocks⟩
  rw [hlexemes] at hparens hblocks
  obtain rfl := Nat.le_zero.mp hparens
  obtain rfl := Nat.le_zero.mp hblocks
  rfl

theorem append (h : Closing ls) (h' : Closing ls') : Closing (ls ++ ls') := by
  induction h with
  | nil => exact h'
  | @cons l ls hdepth _ ih =>
    refine .cons (fun d => ?_) ih
    change ((d.lexemes ((l :: ls) ++ ls')).parens ≤ _ ∧ (d.lexemes ((l :: ls) ++ ls')).blocks ≤ _)
    rw [Depth.lexemes_append]
    obtain ⟨hparens, hblocks⟩ := h'.depth (d.lexemes (l :: ls))
    exact ⟨hparens.trans (hdepth d).1, hblocks.trans (hdepth d).2⟩

theorem suffix (h : Closing (ls ++ ls')) : Closing ls' := by
  induction ls with
  | nil => exact h
  | cons l ls ih =>
    cases h with
    | cons _ h => exact ih h

/-- A lexeme that opens nothing. -/
theorem cons_of_le {l : Lexeme}
    (hl : ∀ d : Depth, (d.lexeme l).parens ≤ d.parens ∧ (d.lexeme l).blocks ≤ d.blocks)
    (h : Closing ls) : Closing (l :: ls) := by
  refine .cons (fun d => ?_) h
  obtain ⟨hparens, hblocks⟩ := h.depth (d.lexeme l)
  exact ⟨hparens.trans (hl d).1, hblocks.trans (hl d).2⟩

/-- A lexeme whose opening the last of the run behind it closes. -/
theorem bracket {l e : Lexeme} (h : Closing ls) (h' : Closing (e :: ls'))
    (hl : ∀ d d' : Depth, d'.parens ≤ (d.lexeme l).parens → d'.blocks ≤ (d.lexeme l).blocks →
      (d'.lexeme e).parens ≤ d.parens ∧ (d'.lexeme e).blocks ≤ d.blocks)
    (hrest : Closing ls') : Closing (l :: (ls ++ e :: ls')) := by
  refine .cons (fun d => ?_) (h.append h')
  obtain ⟨hparens, hblocks⟩ := h.depth (d.lexeme l)
  obtain ⟨hparens', hblocks'⟩ := hl d _ hparens hblocks
  rw [Depth.lexemes_cons, Depth.lexemes_append, Depth.lexemes_cons]
  obtain ⟨hparens'', hblocks''⟩ := hrest.depth (((d.lexeme l).lexemes ls).lexeme e)
  exact ⟨hparens''.trans hparens', hblocks''.trans hblocks'⟩

end Closing

namespace Lexeme
variable {l : Lexeme}

theorem eq_word (h : l.wordText ≠ []) : l = .word l.wordText := by
  cases l with
  | word w => rfl
  | _ => exact absurd rfl h

theorem Is.eq_word {word : String} (h : l.Is word) (hne : word.toList ≠ []) :
    ∃ w, l = .word w ∧ foldLower w = word.toList := by
  refine ⟨l.wordText, Lexeme.eq_word fun hempty => hne ?_, h⟩
  rw [Lexeme.Is, hempty] at h
  exact h.symm

theorem Is.begin_eq (h : l.Is "begin") (d : Depth) :
    d.lexeme l = { d with blocks := d.blocks + 1 } := by
  obtain ⟨w, rfl, hw⟩ := h.eq_word (by decide)
  rw [Depth.lexeme, Depth.word, if_pos hw]

theorem Is.end_eq (h : l.Is "end") (d : Depth) :
    d.lexeme l = { d with blocks := d.blocks - 1 } := by
  obtain ⟨w, rfl, hw⟩ := h.eq_word (by decide)
  have hbegin : foldLower w ≠ "begin".toList := by
    rw [hw]
    decide
  rw [Depth.lexeme, Depth.word, if_neg hbegin, if_pos hw]

/-- Only BEGIN and `(` add to the depth. -/
theorem le_of_opens_nothing (hbegin : ¬ l.Is "begin") (hopen : l ≠ .char '(') (d : Depth) :
    (d.lexeme l).parens ≤ d.parens ∧ (d.lexeme l).blocks ≤ d.blocks := by
  cases l with
  | word w =>
    have hw : ¬ foldLower w = "begin".toList := hbegin
    rw [Depth.lexeme, Depth.word, if_neg hw]
    split_ifs
    · exact ⟨le_refl _, Nat.sub_le _ _⟩
    · exact ⟨le_refl _, le_refl _⟩
  | char c =>
    have hc : ¬ (c == '(') = true := fun h => hopen (by rw [beq_iff_eq.mp h])
    rw [Depth.lexeme, Depth.char, if_neg hc]
    split_ifs
    · exact ⟨Nat.sub_le _ _, le_refl _⟩
    · exact ⟨le_refl _, le_refl _⟩
  | _ => exact ⟨le_refl _, le_refl _⟩

theorem Is.not_is {word word' : String} (h : l.Is word) (hne : word.toList ≠ word'.toList) :
    ¬ l.Is word' := fun h' => hne (h.symm.trans h')

theorem Is.ne_char {word : String} (h : l.Is word) (hne : word.toList ≠ []) (c : Char) :
    l ≠ .char c := by
  rintro rfl
  exact hne h.symm

end Lexeme

theorem closing_end {e : Lexeme} {ls : List Lexeme} (he : e.Is "end") (h : Closing ls) :
    Closing (e :: ls) :=
  .cons_of_le (Lexeme.le_of_opens_nothing (he.not_is (by decide)) (he.ne_char (by decide) _)) h

theorem closing_control {word : String} {k : Lexeme} {ls : List Lexeme} (hword : word ∈ controlWords)
    (hk : k.Is word) (h : Closing ls) : Closing (k :: ls) := by
  have hall : ∀ word ∈ controlWords, word.toList ≠ "begin".toList ∧ word.toList ≠ [] := by
    decide
  obtain ⟨hbegin, hne⟩ := hall word hword
  exact .cons_of_le (Lexeme.le_of_opens_nothing (hk.not_is hbegin) (hk.ne_char hne _)) h

/-- In well-nested lexemes an END closes what was opened behind the place the count started at. -/
theorem Nested.closing {ls : List Lexeme} (h : Nested ls) : Closing ls := by
  induction h with
  | nil => exact .nil
  | plain hbegin hend hopen hclose _ ih =>
    exact .cons_of_le (Lexeme.le_of_opens_nothing hbegin hopen) ih
  | parens _ _ ihinner ih =>
    have hclose : Closing (.char ')' :: _) := .cons_of_le
      (Lexeme.le_of_opens_nothing (by decide) (by decide)) ih
    refine ihinner.bracket hclose (fun d d' hparens hblocks => ⟨?_, hblocks⟩) ih
    exact Nat.sub_le_of_le_add hparens
  | block hb he _ _ ihinner ih =>
    refine ihinner.bracket (closing_end he ih) (fun d d' hparens hblocks => ?_) ih
    rw [hb.begin_eq] at hparens hblocks
    rw [he.end_eq]
    exact ⟨hparens, Nat.sub_le_of_le_add hblocks⟩
  | control hword hk he hk' _ _ ihinner ih =>
    exact closing_control hword hk
      (ihinner.append (closing_end he (closing_control hword hk' ih)))
  | choice hk he _ _ ihinner ih =>
    have hword : "case" ∈ controlWords := by decide
    exact closing_control hword hk (ihinner.append (closing_end he ih))

/-- A CREATE PROCEDURE, FUNCTION or TRIGGER, up to its last `;`. -/
structure Routine (s : Text) (ls : List Lexeme) : Prop where
  lexed : Lexed s ls
  /-- The header, the block and what may stand behind its END. -/
  shape : ∃ create header opening inner closing tail,
    ls = create :: (header ++ opening :: (inner ++ closing :: tail)) ∧ create.Is "create" ∧
      opening.Is "begin" ∧ closing.Is "end" ∧ Nested header ∧ Nested inner ∧ Nested tail ∧
      .char ';' ∉ header ∧ .char ';' ∉ tail ∧
      ∃ kind ∈ header, kind.Is "procedure" ∨ kind.Is "function" ∨ kind.Is "trigger"

theorem Routine.closing {s : Text} {ls : List Lexeme} (h : Routine s ls) : Closing ls := by
  obtain ⟨create, header, b, inner, e, tail, rfl, hcreate, hb, he, hheader, hinner, htail, -⟩ :=
    h.shape
  refine .cons_of_le (Lexeme.le_of_opens_nothing (hcreate.not_is (by decide))
    (hcreate.ne_char (by decide) _)) (hheader.closing.append ?_)
  exact (Nested.block hb he hinner htail).closing

/-- Every piece that the counts cut a text into is skipped or empty. -/
inductive QuietPieces : List Lexeme → Prop where
  | empty : QuietPieces []
  | skip {ls : List Lexeme} (h : QuietPieces ls) : QuietPieces (.char ';' :: ls)
  | last {ls body : List Lexeme} (hbody : bodyOf ls = some body)
    (hinside : Depth.Inside {} body) : QuietPieces ls
  | next {ls body more : List Lexeme} (hbody : bodyOf ls = some (body ++ .char ';' :: more))
    (hinside : Depth.Inside {} body) (hends : Depth.lexemes {} body = {}) (h : QuietPieces more) :
    QuietPieces ls

/-- One of the pieces that the counts cut a text into creates a table, and the scanner comes to it. -/
inductive Leaks [Dangling] : List Lexeme → Prop where
  | here {w t : Text} {ls more : List Lexeme} (hw : foldLower w = "create".toList)
    (hls : eatWords creationWords ls = .word t :: more) (ht : foldLower t = "table".toList) :
    Leaks (.word w :: ls)
  | skip {ls : List Lexeme} (h : Leaks ls) : Leaks (.char ';' :: ls)
  | next {ls body more : List Lexeme} (hbody : bodyOf ls = some (body ++ .char ';' :: more))
    (hinside : Depth.Inside {} body) (hends : Depth.lexemes {} body = {})
    (hsound : ∀ l ∈ body, l.Sound) (h : Leaks more) : Leaks ls

theorem QuietPieces.silent {ls : List Lexeme} (h : QuietPieces ls) (hclosing : Closing ls) :
    Silent ls := by
  induction h with
  | empty => exact .empty
  | skip _ ih =>
    cases hclosing with
    | cons _ hclosing => exact .skip (ih hclosing)
  | last hbody hinside =>
    obtain ⟨head, rfl, -⟩ := bodyOf_suffix hbody
    exact .last hbody hinside hclosing.suffix.lexemes_eq
  | next hbody hinside hends _ ih =>
    obtain ⟨head, rfl, -⟩ := bodyOf_suffix hbody
    refine .next hbody hinside hends (ih ?_)
    cases hclosing.suffix.suffix with
    | cons _ hclosing => exact hclosing

theorem edit_length (slot : ℕ) (content : Content) (e : Edit) :
    (content.edit slot e).out.tables.length = content.out.tables.length := by
  cases e <;> simp [Content.edit, Content.modifyTable]

theorem edits_length (content : Content) (slot : ℕ) (items : List Edit) :
    (content.edits slot items).out.tables.length = content.out.tables.length := by
  rw [Content.edits]
  induction items generalizing content with
  | nil => rfl
  | cons e items ih => rw [List.foldl_cons, ih, edit_length]

theorem apply_length (content : Content) (command : Command) :
    content.out.tables.length ≤ (content.apply command).out.tables.length := by
  cases command with
  | createTable parts items =>
    rw [Content.apply]
    split
    · rw [edits_length]
      simp
    · rw [edits_length]
      simp [Content.modifyTable]
  | createIndex name parts columns unique =>
    rw [Content.apply]
    split
    · exact le_refl _
    · exact (edit_length _ _ _).ge
  | alter parts items =>
    rw [Content.apply]
    split
    · exact le_refl _
    · exact (edits_length _ _ _).ge
  | _ => exact le_refl _

theorem createTable_length (content : Content) (parts : List Text) (items : List Edit) :
    0 < (content.apply (.createTable parts items)).out.tables.length := by
  rw [Content.apply]
  split
  · rw [edits_length]
    simp
  · rename_i slot hslot
    rw [edits_length]
    obtain ⟨hlt, -⟩ := List.findIdx?_eq_some_iff_getElem.mp hslot
    simp only [Content.modifyTable, List.length_modify]
    exact Nat.lt_of_le_of_lt (Nat.zero_le _) hlt

theorem finish_length (content : Content) :
    content.finish.tables.length = content.out.tables.length := by
  rw [Content.finish, resolvePendingKeys]
  generalize content.out = out
  induction content.pending generalizing out with
  | nil => rfl
  | cons key pending ih =>
    rw [List.foldl_cons, ih, resolvePendingKey]
    split <;> simp

theorem schemaFrom_length [Dangling] {content : Content} {text : Text} {out : DdlSnapshot}
    (h : schemaFrom content text = some out) : content.out.tables.length ≤ out.tables.length := by
  induction hn : text.length using Nat.strongRecOn generalizing content text with
  | ind n ih =>
    rw [schemaFrom_eq] at h
    obtain ⟨⟨u, rest⟩, hskip, h⟩ := Option.bind_eq_some_iff.mp h
    split_ifs at h with hend
    · obtain rfl := Option.some.inj h
      exact (finish_length content).ge
    · obtain ⟨q, hq, h⟩ := Option.bind_eq_some_iff.mp h
      have hlt : q.2.length < n := by
        have hless := (settled_of_skipBlanks hskip).readStatement_consumes hend hq
        have hle : rest.length ≤ text.length := read_length_le hskip
        omega
      exact (apply_length content q.1).trans (ih _ hlt h rfl)

/-- Whatever script follows, it has the tables it has without the statement. -/
def ContributesNothing [Dangling] (s : Text) : Prop :=
  ∀ r, (schemaOf (s ++ r)).map DdlSnapshot.tables = (schemaOf r).map DdlSnapshot.tables

theorem read_createTable [Dangling] {s w t : Text} {ls more : List Lexeme} (h : Lexed s (.word w :: ls))
    (hw : foldLower w = "create".toList) (hls : eatWords creationWords ls = .word t :: more)
    (ht : foldLower t = "table".toList) (r : Text) (tables : List Text → Option Text) :
    ∃ s', (readStatement tables).read (s ++ r) = readCreateTable.read (s' ++ r) := by
  obtain ⟨s₁, h₁, read₁⟩ := h.read_eat_word
  obtain ⟨s₂, h₂, read₂⟩ := h₁.read_eatKeyword_this word_create hw
  obtain ⟨s₃, h₃, read₃⟩ := h₂.read_eatKeywords word_creationWords
  rw [hls] at h₃
  obtain ⟨s₄, h₄, read₄⟩ := h₃.read_eatKeyword_this (show Word "table".toList from ⟨rfl, rfl⟩) ht
  refine ⟨s₄, ?_⟩
  rw [readStatement, read_bind, read₁, Option.bind_some, if_neg Bool.false_ne_true, read_bind,
    read₂, Option.bind_some, if_pos rfl, readCreate, read_bind, read₃, Option.bind_some, read_bind,
    read₄, Option.bind_some, if_pos rfl]

theorem readCreateTable_creates [Dangling] {text : Text} {q : Command × Text}
    (h : readCreateTable.read text = some q) : ∃ parts edits, q.1 = .createTable parts edits := by
  simp only [readCreateTable, read_bind] at h
  obtain ⟨q₁, -, h⟩ := Option.bind_eq_some_iff.mp h
  obtain ⟨q₂, -, h⟩ := Option.bind_eq_some_iff.mp h
  obtain ⟨q₃, -, h⟩ := Option.bind_eq_some_iff.mp h
  obtain rfl := Option.some.inj h
  exact ⟨q₂.1, q₃.1, rfl⟩

theorem Leaks.tables [Dangling] {ls : List Lexeme} (h : Leaks ls) {s : Text} (hs : Lexed s ls)
    {content : Content} {r : Text} {out : DdlSnapshot}
    (hout : schemaFrom content (s ++ r) = some out) : 0 < out.tables.length := by
  induction h generalizing s with
  | here hw hls ht =>
    obtain ⟨s', hread⟩ := read_createTable hs hw hls ht r content.spelling
    rw [hs.schemaFrom_eq, hread] at hout
    obtain ⟨q, hq, hout⟩ := Option.bind_eq_some_iff.mp hout
    obtain ⟨parts, edits, hcommand⟩ := readCreateTable_creates hq
    rw [hcommand] at hout
    exact Nat.lt_of_lt_of_le (createTable_length content parts edits) (schemaFrom_length hout)
  | skip _ ih =>
    obtain ⟨s', hs', hgo⟩ := hs.schemaFrom_semicolon
    rw [hgo] at hout
    exact ih hs' hout
  | next hbody hinside hends hsound _ ih =>
    obtain ⟨s', command, hs', hsays, hread⟩ := hs.skipped hbody
    obtain ⟨s'', hs'', hend⟩ := hs'.read_end_at hinside hends hsound
    rw [hs.schemaFrom_eq, hread, statementEnd, hend, Option.map_some, Option.bind_some, hsays]
      at hout
    exact ih hs'' hout

/-- A routine contributes nothing where each piece that the count of BEGIN and END cuts it into is
one that is skipped, and the scanner goes over each `$` of it. It does so whatever is read in the place
of a marker that is gone exactly where no `$` stands outside of words, quotes and comments. Where one
of the pieces creates a table, it contributes something. -/
theorem routine_contributes_nothing {s : Text} {ls : List Lexeme} (h : Routine s ls) :
    (QuietPieces ls → ((∀ [Dangling], ContributesNothing s) ↔ ls.any Lexeme.lone = false)) ∧
      (QuietPieces ls → ∀ [Dangling], (∀ l ∈ ls, l.Sound) → ContributesNothing s) ∧
      ∀ [Dangling], Leaks ls → ¬ ContributesNothing s := by
  have hquiet : QuietPieces ls → ∀ [Dangling], (∀ l ∈ ls, l.Sound) → ContributesNothing s := by
    intro hpieces _ hsound r
    rw [schemaOf_eq, schemaOf_eq,
      (hpieces.silent h.closing).schemaFrom_append h.lexed hsound {} r]
  refine ⟨fun hpieces => ⟨fun hnothing => ?_, fun hlone _ => ?_⟩, hquiet, ?_⟩
  · by_contra hlone
    rw [Bool.not_eq_false] at hlone
    have hfails := @Silent.schemaFrom_lost .lost (fun _ => rfl) _ _ (hpieces.silent h.closing)
      h.lexed hlone {} []
    have hnil := @hnothing .lost []
    rw [@schemaOf_eq .lost, @schemaOf_eq .lost, hfails, @schemaFrom_nil .lost] at hnil
    cases hnil
  · exact hquiet hpieces fun l hl =>
      Lexeme.sound_of_lone (by simpa using List.any_eq_false.mp hlone l hl)
  · intro _ hleaks hnothing
    have hnil := hnothing []
    rw [schemaOf_eq, schemaOf_eq, schemaFrom_nil] at hnil
    cases hout : schemaFrom {} (s ++ []) with
    | none =>
      rw [hout] at hnil
      cases hnil
    | some out =>
      have hpos := hleaks.tables h.lexed hout
      rw [hout] at hnil
      rw [show out.tables = [] from Option.some.inj hnil] at hpos
      exact absurd hpos (Nat.lt_irrefl 0)

/-- The lexemes of a text that has no others than words and single characters. -/
def lexemes (words : List String) : List Lexeme :=
  words.map fun word => if word.toList.head?.any identStart then .word word.toList
    else .char (word.toList.headD ' ')

/-- `create function f begin create table t (); end;` -/
def tableInside : List Lexeme := lexemes ["create", "function", "f", "begin", "create", "table",
  "t", "(", ")", ";", "end"]

/-- `create function f begin if a then b; end if; create table t (); end;` -/
def tableBehindIf : List Lexeme := lexemes ["create", "function", "f", "begin", "if", "a", "then",
  "b", ";", "end", "if", ";", "create", "table", "t", "(", ")", ";", "end"]

theorem nested_plain {ls : List Lexeme} (h : ∀ l ∈ ls, ¬ l.Is "begin" ∧ ¬ l.Is "end" ∧
    l ≠ .char '(' ∧ l ≠ .char ')') : Nested ls := by
  induction ls with
  | nil => exact .nil
  | cons l ls ih =>
    obtain ⟨⟨hbegin, hend, hopen, hclose⟩, hls⟩ := List.forall_mem_cons.mp h
    exact .plain hbegin hend hopen hclose (ih hls)

theorem nested_table : Nested (lexemes ["create", "table", "t", "(", ")", ";"]) :=
  .plain (by decide) (by decide) (by decide) (by decide)
    (.plain (by decide) (by decide) (by decide) (by decide)
      (.plain (by decide) (by decide) (by decide) (by decide)
        (.parens .nil (nested_plain (by decide)))))

theorem routine_lexemes {inner : List Lexeme} (hinner : Nested inner)
    (hspell : ∀ l ∈ inner, l.spellable = true) :
    Routine (spell (lexemes ["create", "function", "f", "begin"] ++ inner ++ lexemes ["end"]))
      (lexemes ["create", "function", "f", "begin"] ++ inner ++ lexemes ["end"]) := by
  refine ⟨lexed_spell ?_, .word "create".toList, lexemes ["function", "f"], .word "begin".toList,
    inner, .word "end".toList, [], rfl, by decide, by decide, by decide, nested_plain (by decide),
    hinner, .nil, by decide, by decide, .word "function".toList, by decide, by decide⟩
  intro l hl
  simp only [List.mem_append] at hl
  rcases hl with (hl | hl) | hl
  · revert l
    decide
  · exact hspell l hl
  · revert l
    decide

theorem tableInside_contributes_nothing : Routine (spell tableInside) tableInside ∧
    ∀ [Dangling], ContributesNothing (spell tableInside) := by
  have hroutine : Routine (spell tableInside) tableInside := routine_lexemes nested_table (by decide)
  exact ⟨hroutine, ((routine_contributes_nothing hroutine).1 (.last rfl (by decide))).mpr (by decide)⟩

section Small
attribute [local instance] Dangling.small

/-- END IF is counted against the BEGIN of the body: the table behind it is read. -/
theorem tableBehindIf_leaks : Routine (spell tableBehindIf) tableBehindIf ∧
    (schemaOf (spell tableBehindIf)).map (fun out => out.tables.length) = some 1 ∧
      ¬ ContributesNothing (spell tableBehindIf) := by
  have hinner : Nested (lexemes ["if", "a", "then", "b", ";", "end", "if", ";", "create", "table",
      "t", "(", ")", ";"]) := by
    have hbody : Nested (lexemes ["a", "then", "b", ";"]) := nested_plain (by decide)
    have hrest : Nested (lexemes [";", "create", "table", "t", "(", ")", ";"]) :=
      .plain (by decide) (by decide) (by decide) (by decide) nested_table
    have hword : "if" ∈ controlWords := by decide
    exact .control hword (by decide) (by decide) (by decide) hbody hrest
  have hcount : (schemaOf (spell tableBehindIf)).map (fun out => out.tables.length) = some 1 := by
    decide
  refine ⟨routine_lexemes hinner (by decide), hcount, fun hnothing => ?_⟩
  have hnil := hnothing []
  rw [List.append_nil, show schemaOf [] = some {} from rfl] at hnil
  cases hout : schemaOf (spell tableBehindIf) with
  | none =>
    rw [hout] at hcount
    cases hcount
  | some out =>
    rw [hout] at hnil hcount
    rw [Option.map_some, show out.tables = [] from Option.some.inj hnil] at hcount
    cases hcount

end Small

end Uniorm.Ddl
