import Uniorm.Ddl.Run

/-! # Statements that say nothing of the schema

A statement whose first words are none that a schema is read from is skipped up
to its end. Where the end is, `statement_end` finds by counting: parentheses,
and BEGIN and END wherever these words stand. So a script is cut at every `;`
at which the counts are zero, and a text is silent when all its pieces are of
the kind that is skipped and the last of them ends with the text.
-/
namespace Uniorm.Ddl

open Foundation Foundation.Scan Sql Builder Schema

def schemaObjects : List Text :=
  ["table", "unique", "index", "database", "schema"].map String.toList

/-- The lexemes a statement is skipped over, where it begins with words it is skipped for. -/
def bodyOf : List Lexeme → Option (List Lexeme)
  | .word w :: ls =>
    if foldLower w = "create".toList then
      match eatWords creationWords ls with
      | .word v :: body => if schemaObjects.contains (foldLower v) then none else some body
      | _ => none
    else if foldLower w = "alter".toList || foldLower w = "use".toList then none
    else some ls
  | _ => none

theorem word_creationWords : ∀ word ∈ creationWords, Word word := by
  intro word hword
  have hall : ∀ word ∈ creationWords, word.head?.any identStart = true ∧ word.all identChar = true := by
    decide
  exact ⟨(hall word hword).1, (hall word hword).2⟩

theorem word_schemaObjects : ∀ word ∈ schemaObjects, Word word ∧ foldLower word = word := by
  intro word hword
  have hall : ∀ word ∈ schemaObjects, word.head?.any identStart = true ∧
      word.all identChar = true ∧ foldLower word = word := by decide
  obtain ⟨hstart, hchars, hfold⟩ := hall word hword
  exact ⟨⟨hstart, hchars⟩, hfold⟩

/-- A word that is not eaten stays. -/
theorem Lexed.read_eatKeyword_other {s w word : Text} {ls : List Lexeme}
    (h : Lexed s (.word w :: ls)) (hword : Word word) (hne : foldLower w ≠ foldLower word) :
    ∃ s', Lexed s' (.word w :: ls) ∧ ∀ r, (eatKeyword word).read (s ++ r) = some (false, s' ++ r) := by
  have heat : eatWord word (.word w :: ls) = (false, .word w :: ls) := if_neg hne
  obtain ⟨s', hs', hread⟩ := h.read_eatKeyword hword
  rw [heat] at hs' hread
  exact ⟨s', hs', hread⟩

/-- A word that is eaten goes. -/
theorem Lexed.read_eatKeyword_this {s w word : Text} {ls : List Lexeme}
    (h : Lexed s (.word w :: ls)) (hword : Word word) (heq : foldLower w = foldLower word) :
    ∃ s', Lexed s' ls ∧ ∀ r, (eatKeyword word).read (s ++ r) = some (true, s' ++ r) := by
  have heat : eatWord word (.word w :: ls) = (true, ls) := if_pos heq
  obtain ⟨s', hs', hread⟩ := h.read_eatKeyword hword
  rw [heat] at hs' hread
  exact ⟨s', hs', hread⟩

def Skipped [Dangling] (s : Text) (body : List Lexeme) : Prop :=
  ∃ s' command, Lexed s' body ∧ (∀ content : Content, content.apply command = content) ∧
    ∀ r tables, (readStatement tables).read (s ++ r) =
      (statementEnd.read (s' ++ r)).map fun q => (command, q.2)

theorem skipped_create [Dangling] {s w v : Text} {ls body : List Lexeme} (h : Lexed s (.word w :: ls))
    (hw : foldLower w = "create".toList) (hls : eatWords creationWords ls = .word v :: body)
    (hv : schemaObjects.contains (foldLower v) = false) : Skipped s body := by
  have hother : ∀ word ∈ schemaObjects, ∀ s, Lexed s (.word v :: body) →
      ∃ s', Lexed s' (.word v :: body) ∧
        ∀ r, (eatKeyword word).read (s ++ r) = some (false, s' ++ r) := by
    intro word hword s hs
    refine hs.read_eatKeyword_other (word_schemaObjects word hword).1 fun heq => ?_
    rw [(word_schemaObjects word hword).2] at heq
    rw [heq, List.contains_iff_mem.mpr hword] at hv
    cases hv
  obtain ⟨s₁, h₁, read₁⟩ := h.read_eat_word
  obtain ⟨s₂, h₂, read₂⟩ := h₁.read_eatKeyword_this word_create hw
  obtain ⟨s₃, h₃, read₃⟩ := h₂.read_eatKeywords word_creationWords
  rw [hls] at h₃
  obtain ⟨s₄, h₄, read₄⟩ := hother "table".toList (by decide) s₃ h₃
  obtain ⟨s₅, h₅, read₅⟩ := hother "unique".toList (by decide) s₄ h₄
  obtain ⟨s₆, h₆, read₆⟩ := hother "index".toList (by decide) s₅ h₅
  obtain ⟨s₇, h₇, read₇⟩ := hother "database".toList (by decide) s₆ h₆
  obtain ⟨s₈, h₈, read₈⟩ := hother "schema".toList (by decide) s₇ h₇
  obtain ⟨s₉, h₉, read₉⟩ := h₈.read_here
  have hplace : ∀ r, (eatOneOf (["database", "schema"].map String.toList)).read (s₆ ++ r) =
      some (false, s₈ ++ r) := fun r => by
    simp only [List.map_cons, List.map_nil, eatOneOf, read_bind, read₇, read₈, Option.bind_some,
      Bool.false_eq_true, if_false, read_pure]
  refine ⟨s₉, .ignored ("CREATE ".toList ++ foldUpper v), h₉, fun _ => rfl, fun r tables => ?_⟩
  rw [readStatement, read_bind, read₁, Option.bind_some, if_neg Bool.false_ne_true, read_bind,
    read₂, Option.bind_some, if_pos rfl, readCreate, read_bind, read₃, Option.bind_some, read_bind, read₄,
    Option.bind_some, if_neg Bool.false_ne_true, read_bind, read₅, Option.bind_some, read_bind, read₆,
    Option.bind_some, if_neg Bool.false_ne_true, read_bind, hplace, Option.bind_some,
    if_neg Bool.false_ne_true, read_bind, read₉, Option.bind_some, read_bind]
  cases statementEnd.read (s₉ ++ r) <;> rfl

theorem skipped_other [Dangling] {s w : Text} {body : List Lexeme} (h : Lexed s (.word w :: body))
    (hcreate : foldLower w ≠ "create".toList) (halter : foldLower w ≠ "alter".toList)
    (huse : foldLower w ≠ "use".toList) : Skipped s body := by
  obtain ⟨s₁, h₁, read₁⟩ := h.read_eat_word
  obtain ⟨s₂, h₂, read₂⟩ := h₁.read_eatKeyword_other word_create hcreate
  obtain ⟨s₃, h₃, read₃⟩ := h₂.read_eatKeyword_other word_alter halter
  obtain ⟨s₄, h₄, read₄⟩ := h₃.read_eatKeyword_other word_use huse
  obtain ⟨s₅, h₅, read₅⟩ := h₄.read_here
  refine ⟨s₅, if carriesNoSchema (foldLower w) then .nothing
    else .ignored ("statement '".toList ++ foldLower w ++ ['\'']), h₅, fun content => ?_,
    fun r tables => ?_⟩
  · split_ifs <;> rfl
  · rw [readStatement, read_bind, read₁, Option.bind_some, if_neg Bool.false_ne_true, read_bind, read₂,
      Option.bind_some, if_neg Bool.false_ne_true, read_bind, read₃, Option.bind_some,
      if_neg Bool.false_ne_true, read_bind, read₄, Option.bind_some, if_neg Bool.false_ne_true,
      readOther, read_bind, read₅, Option.bind_some, read_bind]
    cases statementEnd.read (s₅ ++ r) <;> rfl

theorem Lexed.skipped [Dangling] {s : Text} {ls body : List Lexeme} (h : Lexed s ls)
    (hbody : bodyOf ls = some body) : Skipped s body := by
  unfold bodyOf at hbody
  split at hbody
  · rename_i w ls
    split_ifs at hbody with hcreate hother
    · split at hbody
      · rename_i v rest hls
        split_ifs at hbody with hv
        obtain rfl := Option.some.inj hbody
        exact skipped_create h hcreate hls (Bool.not_eq_true _ ▸ hv)
      · cases hbody
    · obtain rfl := Option.some.inj hbody
      rw [Bool.or_eq_true, decide_eq_true_eq, decide_eq_true_eq, not_or] at hother
      exact skipped_other h hcreate hother.1 hother.2
  · cases hbody

/-- A statement ends at the first of its `;` at which the counts are zero. -/
theorem Lexed.read_end_at [Dangling] {s : Text} {before after : List Lexeme}
    (h : Lexed s (before ++ .char ';' :: after)) {d : Depth} (hinside : d.Inside before)
    (hends : d.lexemes before = {}) (hsound : ∀ l ∈ before, l.Sound) :
    ∃ s', Lexed s' after ∧ ∀ r, (loop endStep d).read (s ++ r) = some ((), s' ++ r) := by
  induction before generalizing s d with
  | nil =>
    obtain ⟨piece, text, hpiece, htext, hskip⟩ := h.cons_inv
    refine ⟨text, htext, fun r => ?_⟩
    have happ := hpiece.append htext.ne_nil r
    rw [read_loop endStep_consumes, read_endStep_of_skip (hskip r),
      happ.read_endAt trivial d, if_pos ⟨rfl, hends⟩]
    rfl
  | cons l before ih =>
    obtain ⟨hl, hbefore⟩ := List.forall_mem_cons.mp hsound
    obtain ⟨piece, text, hpiece, htext, hskip⟩ := h.cons_inv
    have hgo : ¬ (l = .char ';' ∧ d = {}) := by
      rintro ⟨rfl, hd⟩
      exact hinside.head hd
    obtain ⟨s', hs', hread⟩ := ih htext hinside.tail hends hbefore
    refine ⟨s', hs', fun r => ?_⟩
    have happ := hpiece.append htext.ne_nil r
    rw [read_loop endStep_consumes, read_endStep_of_skip (hskip r), happ.read_endAt hl, if_neg hgo]
    exact hread r

/-- Every piece that the counts cut a text into is skipped or empty, and the last one ends with the
text. -/
inductive Silent : List Lexeme → Prop where
  | empty : Silent []
  | skip {ls : List Lexeme} (h : Silent ls) : Silent (.char ';' :: ls)
  | last {ls body : List Lexeme} (hbody : bodyOf ls = some body) (hinside : Depth.Inside {} body)
    (hends : Depth.lexemes {} body = {}) : Silent ls
  | next {ls body more : List Lexeme} (hbody : bodyOf ls = some (body ++ .char ';' :: more))
    (hinside : Depth.Inside {} body) (hends : Depth.lexemes {} body = {}) (h : Silent more) : Silent ls

theorem skipsFirst_readStatement [Dangling] (tables : List Text → Option Text) :
    SkipsFirst (readStatement tables) := (skipsFirst_eat ';').bind _

/-- A script that has lexemes left goes on with a statement. -/
theorem Lexed.schemaFrom_eq [Dangling] {s : Text} {ls : List Lexeme} (h : Lexed s ls) (content : Content)
    (r : Text) : schemaFrom content (s ++ r) =
      ((readStatement content.spelling).read (s ++ r)).bind fun q =>
        schemaFrom (content.apply q.1) q.2 := by
  have hgo : ∀ t, skipBlanks.read (s ++ r) = some ((), t) → Settled t → t ≠ [] →
      schemaFrom content (s ++ r) = ((readStatement content.spelling).read (s ++ r)).bind fun q =>
        schemaFrom (content.apply q.1) q.2 := fun t hskip ht hne => by
    rw [skipsFirst_readStatement _ _ t hskip ht, Ddl.schemaFrom_eq, hskip, Option.bind_some,
      if_neg hne]
  cases ls with
  | nil => exact hgo _ (h.nil_inv r) (settled_semicolon r) (List.cons_ne_nil _ _)
  | cons l ls =>
    obtain ⟨piece, text, hpiece, htext, hskip⟩ := h.cons_inv
    refine hgo _ (hskip r) (hpiece.append htext.ne_nil r).settled ?_
    rw [← List.append_assoc]
    exact List.append_ne_nil_of_left_ne_nil (Lexed.lexeme hpiece htext).ne_nil r

theorem Lexed.schemaFrom_nil [Dangling] {s : Text} (h : Lexed s []) (content : Content) (r : Text) :
    schemaFrom content (s ++ r) = schemaFrom content r := by
  rw [h.schemaFrom_eq, readStatement, read_bind, h.read_eat_nil]
  rfl

theorem Lexed.schemaFrom_semicolon [Dangling] {s : Text} {ls : List Lexeme}
    (h : Lexed s (.char ';' :: ls)) :
    ∃ s', Lexed s' ls ∧
      ∀ content r, schemaFrom content (s ++ r) = schemaFrom content (s' ++ r) := by
  obtain ⟨s', hs', hread⟩ := h.read_eat_semicolon
  refine ⟨s', hs', fun content r => ?_⟩
  rw [h.schemaFrom_eq, readStatement, read_bind, hread]
  rfl

/-- The words a skipped statement begins with have no part in the counts. -/
theorem eatWords_suffix {words : List Text} (hwords : ∀ word ∈ words, Word word)
    (ls : List Lexeme) :
    ∃ head, ls = head ++ eatWords words ls ∧ ∀ l ∈ head, ∃ w, l = .word w := by
  induction words generalizing ls with
  | nil => exact ⟨[], rfl, fun _ hl => absurd hl List.not_mem_nil⟩
  | cons word words ih =>
    have hmore := fun w hw => hwords w (List.mem_cons_of_mem _ hw)
    cases ls with
    | nil => exact ih hmore []
    | cons l ls =>
      by_cases hfold : foldLower l.wordText = foldLower word
      · have heat : eatWords (word :: words) (l :: ls) = eatWords words ls := by
          rw [eatWords, List.foldl_cons, eatWord, if_pos hfold]
          rfl
        have hl : ∃ w, l = .word w := by
          cases l with
          | word w => exact ⟨w, rfl⟩
          | _ =>
            have hempty := word_foldLower.mp (hfold ▸ word_foldLower.mpr
              (hwords word List.mem_cons_self))
            cases hempty.start
        obtain ⟨head, hsplit, hhead⟩ := ih hmore ls
        refine ⟨l :: head, ?_, List.forall_mem_cons.mpr ⟨hl, hhead⟩⟩
        rw [heat, List.cons_append, ← hsplit]
      · have heat : eatWords (word :: words) (l :: ls) = eatWords words (l :: ls) := by
          rw [eatWords, List.foldl_cons, eatWord, if_neg hfold]
          rfl
        rw [heat]
        exact ih hmore (l :: ls)

theorem bodyOf_suffix {ls body : List Lexeme} (h : bodyOf ls = some body) :
    ∃ head, ls = head ++ body ∧ ∀ l ∈ head, ∃ w, l = .word w := by
  unfold bodyOf at h
  split at h
  · rename_i w ls
    split_ifs at h
    · split at h
      · rename_i v rest hls
        split_ifs at h
        obtain rfl := Option.some.inj h
        obtain ⟨head, hsplit, hhead⟩ := eatWords_suffix word_creationWords ls
        refine ⟨.word w :: (head ++ [.word v]), ?_, ?_⟩
        · rw [hls] at hsplit
          rw [hsplit, List.cons_append, List.append_assoc, List.singleton_append]
        · simp only [List.mem_cons, List.mem_append, List.not_mem_nil, or_false]
          rintro l (rfl | hl | rfl)
          · exact ⟨w, rfl⟩
          · exact hhead l hl
          · exact ⟨v, rfl⟩
      · cases h
    · obtain rfl := Option.some.inj h
      exact ⟨[.word w], rfl, fun l hl => ⟨w, List.mem_singleton.mp hl⟩⟩
  · cases h

theorem mem_of_bodyOf {ls body : List Lexeme} (h : bodyOf ls = some body) {l : Lexeme}
    (hl : l ∈ body) : l ∈ ls := by
  obtain ⟨head, rfl, -⟩ := bodyOf_suffix h
  exact List.mem_append_right _ hl

/-- What stands alone stands behind the words that a skipped statement begins with. -/
theorem any_lone_bodyOf {ls body : List Lexeme} (h : bodyOf ls = some body) :
    body.any Lexeme.lone = ls.any Lexeme.lone := by
  obtain ⟨head, rfl, hhead⟩ := bodyOf_suffix h
  have hnone : head.any Lexeme.lone = false := by
    rw [List.any_eq_false]
    intro l hl
    obtain ⟨w, rfl⟩ := hhead l hl
    exact Bool.false_ne_true
  rw [List.any_append, hnone, Bool.false_or]

/-- A silent text says nothing, whatever the script has said so far and whatever it says next. -/
theorem Silent.schemaFrom_append [Dangling] {s : Text} {ls : List Lexeme} (h : Silent ls)
    (hs : Lexed s ls) (hsound : ∀ l ∈ ls, l.Sound) (content : Content) (r : Text) :
    schemaFrom content (s ++ r) = schemaFrom content r := by
  induction h generalizing s with
  | empty => exact hs.schemaFrom_nil content r
  | skip h ih =>
    obtain ⟨s', hs', hgo⟩ := hs.schemaFrom_semicolon
    rw [hgo]
    exact ih hs' fun l hl => hsound l (List.mem_cons_of_mem _ hl)
  | last hbody hinside hends =>
    obtain ⟨s', command, hs', htold, hread⟩ := hs.skipped hbody
    have hend := hs'.read_end hinside (fun l hl => hsound l (mem_of_bodyOf hbody hl)) r
    rw [if_pos hends] at hend
    rw [hs.schemaFrom_eq, hread, statementEnd, hend, Option.map_some, Option.bind_some, htold]
  | @next ls body more hbody hinside hends h ih =>
    have hsplit : ∀ l ∈ body ++ .char ';' :: more, l.Sound := fun l hl =>
      hsound l (mem_of_bodyOf hbody hl)
    obtain ⟨s', command, hs', htold, hread⟩ := hs.skipped hbody
    obtain ⟨s'', hs'', hend⟩ := hs'.read_end_at hinside hends fun l hl =>
      hsplit l (List.mem_append_left _ hl)
    rw [hs.schemaFrom_eq, hread, statementEnd, hend, Option.map_some, Option.bind_some, htold]
    exact ih hs'' fun l hl => hsplit l (List.mem_append_right _ (List.mem_cons_of_mem _ hl))

/-- Where the markers are lost, it fails at a `$` that stands alone. -/
theorem Silent.schemaFrom_lost [Dangling] (hlost : ∀ gone, Dangling.bytes gone = none) {s : Text}
    {ls : List Lexeme} (h : Silent ls) (hs : Lexed s ls) (hlone : ls.any Lexeme.lone = true)
    (content : Content) (r : Text) : schemaFrom content (s ++ r) = none := by
  induction h generalizing s with
  | empty => cases hlone
  | skip h ih =>
    obtain ⟨s', hs', hgo⟩ := hs.schemaFrom_semicolon
    rw [hgo]
    exact ih hs' hlone
  | @last ls body hbody hinside hends =>
    obtain ⟨s', command, hs', htold, hread⟩ := hs.skipped hbody
    rw [← any_lone_bodyOf hbody] at hlone
    rw [← List.append_nil body] at hs'
    rw [hs.schemaFrom_eq, hread, statementEnd, hs'.read_end_lost hlost hinside hlone]
    rfl
  | @next ls body more hbody hinside hends h ih =>
    rw [← any_lone_bodyOf hbody, List.any_append] at hlone
    obtain ⟨s', command, hs', htold, hread⟩ := hs.skipped hbody
    cases hfront : body.any Lexeme.lone with
    | true =>
      rw [hs.schemaFrom_eq, hread, statementEnd, hs'.read_end_lost hlost hinside hfront]
      rfl
    | false =>
      obtain ⟨s'', hs'', hend⟩ := hs'.read_end_at hinside hends fun l hl =>
        Lexeme.sound_of_lone (by simpa using List.any_eq_false.mp hfront l hl)
      rw [hfront, Bool.false_or] at hlone
      rw [hs.schemaFrom_eq, hread, statementEnd, hend, Option.map_some, Option.bind_some, htold]
      exact ih hs'' hlone

/-- A text without which every script says the same, and fails alike. -/
def Neutral [Dangling] (s : Text) : Prop := ∀ r, schemaOf (s ++ r) = schemaOf r

/-- A statement whose only `;` outside of parentheses is its last character. -/
structure Complete (s : Text) (ls : List Lexeme) : Prop where
  lexed : Lexed s ls
  closed : (Depth.lexemes {} ls).parens = 0
  inner : ∀ before after, ls = before ++ .char ';' :: after → 0 < (Depth.lexemes {} before).parens

/-- The statements that carry no schema are skipped. -/
theorem bodyOf_quiet {w : Text} (h : carriesNoSchema (foldLower w) = true) (ls : List Lexeme) :
    bodyOf (.word w :: ls) = some ls := by
  have hword : ∀ word ∈ ["create", "alter", "use"].map String.toList, foldLower w ≠ word := by
    intro word hword heq
    rw [heq] at h
    have hall : ∀ word ∈ ["create", "alter", "use"].map String.toList,
        carriesNoSchema word = false := by decide
    rw [hall word hword] at h
    cases h
  have hcreate := hword "create".toList (by decide)
  have halter := hword "alter".toList (by decide)
  have huse := hword "use".toList (by decide)
  simp only [bodyOf, if_neg hcreate, decide_eq_false halter, decide_eq_false huse, Bool.or_false,
    Bool.false_eq_true, if_false]

/-- So is a CREATE VIEW, whatever words its dialect has in front of VIEW. -/
theorem bodyOf_create {w v : Text} {ls body : List Lexeme} (hw : foldLower w = "create".toList)
    (hls : eatWords creationWords ls = .word v :: body) (hv : foldLower v ∉ schemaObjects) :
    bodyOf (.word w :: ls) = some body := by
  have hcontains : schemaObjects.contains (foldLower v) = false := by
    rw [← Bool.not_eq_true, List.contains_iff_mem]
    exact hv
  simp only [bodyOf, if_pos hw, hls, hcontains, Bool.false_eq_true, if_false]

theorem lexeme_parens {d d' : Depth} (h : d.parens = d'.parens) (l : Lexeme) :
    (d.lexeme l).parens = (d'.lexeme l).parens := by
  cases l with
  | word w =>
    simp only [Depth.lexeme, Depth.word]
    split_ifs <;> exact h
  | char c =>
    simp only [Depth.lexeme, Depth.char]
    split_ifs <;> simp [h]
  | quoted => exact h
  | body => exact h
  | dollar => exact h

/-- Parentheses are counted whatever the blocks. -/
theorem lexemes_parens {d d' : Depth} (h : d.parens = d'.parens) (ls : List Lexeme) :
    (d.lexemes ls).parens = (d'.lexemes ls).parens := by
  induction ls generalizing d d' with
  | nil => exact h
  | cons l ls ih => exact ih (lexeme_parens h l)

theorem lexemes_words_parens {head : List Lexeme} (h : ∀ l ∈ head, ∃ w, l = .word w) (d : Depth) :
    (d.lexemes head).parens = d.parens := by
  induction head generalizing d with
  | nil => rfl
  | cons l head ih =>
    obtain ⟨⟨w, rfl⟩, hhead⟩ := List.forall_mem_cons.mp h
    rw [Depth.lexemes_cons, ih hhead, Depth.lexeme, Depth.word]
    split_ifs <;> rfl

theorem lexed_use : Lexed "use d;".toList [.word "use".toList, .word "d".toList] := by
  have huse : Piece "use".toList (.word "use".toList) " d;".toList := .word ⟨rfl, rfl⟩ rfl
  have hd : Piece "d".toList (.word "d".toList) ";".toList := .word ⟨rfl, rfl⟩ rfl
  exact .lexeme huse (.space rfl (.lexeme hd .semicolon))

section Complete
variable {s : Text} {ls body : List Lexeme} (h : Complete s ls) (hbody : bodyOf ls = some body)
include h hbody

theorem Complete.body_parens (before after : List Lexeme) (hsplit : body = before ++ after) :
    ∃ before', ls = before' ++ after ∧
      (Depth.lexemes {} before').parens = (Depth.lexemes {} before).parens := by
  obtain ⟨head, rfl, hhead⟩ := bodyOf_suffix hbody
  refine ⟨head ++ before, ?_, ?_⟩
  · rw [hsplit, List.append_assoc]
  · rw [Depth.lexemes_append]
    exact lexemes_parens (lexemes_words_parens hhead {}) before

theorem Complete.inside : Depth.Inside {} body := by
  intro before after hsplit hzero
  obtain ⟨before', hls, hparens⟩ := h.body_parens hbody before (.char ';' :: after) hsplit
  have hpos := h.inner before' after hls
  rw [hparens, hzero] at hpos
  exact absurd hpos (Nat.lt_irrefl 0)

theorem Complete.body_closed : (Depth.lexemes {} body).parens = 0 := by
  obtain ⟨before', hls, hparens⟩ := h.body_parens hbody body [] (List.append_nil body).symm
  rw [← hparens]
  rw [List.append_nil] at hls
  exact hls ▸ h.closed

/-- Where a BEGIN is left open, the statement goes on over what follows it. -/
theorem Complete.swallows [Dangling] (hsound : ∀ l ∈ body, l.Sound)
    (hopen : Depth.lexemes {} body ≠ {}) {r : Text} {more : List Lexeme} (hr : Lexed r more)
    (hmore : (Depth.lexemes {} body).lexemes more ≠ {})
    (hinside : (Depth.lexemes {} body).Inside more) (hrest : ∀ l ∈ more, l.Sound)
    (content : Content) : schemaFrom content (s ++ r) = some content.finish := by
  obtain ⟨s', command, hs', htold, hread⟩ := h.lexed.skipped hbody
  have hend := hs'.read_end (h.inside hbody) hsound r
  rw [if_neg hopen] at hend
  have hbehind := hr.read_end hinside hrest []
  rw [if_neg hmore, List.append_nil] at hbehind
  have hnil : ∀ d : Depth, (loop endStep d).read [] = some ((), []) := fun d => by
    rw [read_loop endStep_consumes, read_endStep_of_skip settled_nil.read_skipBlanks]
    rfl
  rw [h.lexed.schemaFrom_eq, hread, statementEnd, hend, hbehind, hnil, Option.map_some,
    Option.bind_some, htold, Ddl.schemaFrom_nil]

/-- Where the scanner goes over each `$` of it, a statement that carries no schema is neutral exactly
when each BEGIN in it has an END behind it. -/
theorem Complete.neutral_iff [Dangling] (hsound : ∀ l ∈ body, l.Sound) :
    Neutral s ↔ (Depth.lexemes {} body).blocks = 0 := by
  have hparens := h.body_closed hbody
  constructor
  · intro hneutral
    by_contra hblocks
    have hopen : Depth.lexemes {} body ≠ {} := fun hzero => hblocks (by rw [hzero])
    have hmore : (Depth.lexemes {} body).lexemes [.word "use".toList, .word "d".toList] =
        Depth.lexemes {} body := rfl
    have huse := hneutral "use d;".toList
    rw [schemaOf_eq, h.swallows hbody hsound hopen lexed_use (hmore.symm ▸ hopen)
      (fun before after hsplit => ?_) (fun l hl => ?_)] at huse
    · have htold : schemaOf "use d;".toList = some ⟨"d".toList, []⟩ := rfl
      rw [htold] at huse
      exact absurd huse (by decide)
    · have hmem : Lexeme.char ';' ∈ [.word "use".toList, .word "d".toList] :=
        hsplit ▸ List.mem_append_right _ List.mem_cons_self
      exact absurd hmem (by decide)
    · exact Lexeme.sound_of_lone (by revert l; decide)
  · intro hblocks r
    have hends : Depth.lexemes {} body = {} := by
      rcases hlexemes : Depth.lexemes {} body with ⟨parens, blocks⟩
      rw [hlexemes] at hblocks hparens
      rw [show parens = 0 from hparens, show blocks = 0 from hblocks]
    have hall : ∀ l ∈ ls, l.Sound := by
      obtain ⟨head, rfl, hhead⟩ := bodyOf_suffix hbody
      intro l hl
      rcases List.mem_append.mp hl with hl | hl
      · obtain ⟨w, rfl⟩ := hhead _ hl
        trivial
      · exact hsound l hl
    rw [schemaOf_eq, schemaOf_eq]
    exact (Silent.last hbody (h.inside hbody) hends).schemaFrom_append h.lexed hall {} r

/-- Where the markers are lost, a `$` that stands alone makes the script fail. -/
theorem Complete.not_neutral_of_lost [Dangling] (hlost : ∀ gone, Dangling.bytes gone = none)
    (hlone : body.any Lexeme.lone = true) : ¬ Neutral s := by
  intro hneutral
  obtain ⟨s', command, hs', htold, hread⟩ := h.lexed.skipped hbody
  rw [← List.append_nil body] at hs'
  have hnil := hneutral []
  rw [schemaOf_eq, schemaOf_eq, h.lexed.schemaFrom_eq, hread, statementEnd,
    hs'.read_end_lost hlost (h.inside hbody) hlone, Ddl.schemaFrom_nil] at hnil
  cases hnil

end Complete

/-- A statement that carries no schema is neutral exactly when each BEGIN in it has an END behind it
and no `$` stands in it outside of words, quotes and comments: the scanner fails at one that starts no
quoted body, and looks for the marker of another one through a view of what is gone. Where the marker
is still there, such a body does no harm. -/
theorem quiet_neutral_iff {s : Text} {ls body : List Lexeme} (h : Complete s ls)
    (hbody : bodyOf ls = some body) :
    ((∀ [Dangling], Neutral s) ↔
      (Depth.lexemes {} body).blocks = 0 ∧ body.any Lexeme.lone = false) ∧
    ∀ [Dangling], (∀ l ∈ body, l.Sound) → (Neutral s ↔ (Depth.lexemes {} body).blocks = 0) := by
  refine ⟨⟨fun hneutral => ?_, ?_⟩, h.neutral_iff hbody⟩
  · have hlone : body.any Lexeme.lone = false := by
      by_contra hlone
      rw [Bool.not_eq_false] at hlone
      exact @Complete.not_neutral_of_lost s ls body h hbody .lost (fun _ => rfl) hlone
        (@hneutral .lost)
    refine ⟨?_, hlone⟩
    have hsound := fun l hl =>
        @Lexeme.sound_of_lone .intact l (by simpa using List.any_eq_false.mp hlone l hl)
    exact (@Complete.neutral_iff s ls body h hbody .intact hsound).mp (@hneutral .intact)
  · rintro ⟨hblocks, hlone⟩ _
    have hsound : ∀ l ∈ body, l.Sound := fun l hl =>
      Lexeme.sound_of_lone (by simpa using List.any_eq_false.mp hlone l hl)
    exact (h.neutral_iff hbody hsound).mpr hblocks

section Small
attribute [local instance] Dangling.small

/-- `drop a (';' ... begin ... end)`, with a quoted body that a short marker opens. -/
def dropped : List Lexeme :=
  [.word "drop".toList, .word "it".toList, .char '(', .quoted, .char ';', .word "x".toList, .char ')',
    .word "begin".toList, .body "b".toList, .word "end".toList]

theorem inner_of_take {ls : List Lexeme} (h : ∀ k < ls.length, ls[k]? = some (.char ';') →
    0 < (Depth.lexemes {} (ls.take k)).parens) (before after : List Lexeme)
    (hsplit : ls = before ++ .char ';' :: after) : 0 < (Depth.lexemes {} before).parens := by
  have hinside := h before.length (by simp [hsplit]) (by simp [hsplit])
  rwa [hsplit, List.take_left] at hinside

theorem drop_neutral : Neutral (spell dropped) :=
  ((quiet_neutral_iff ⟨lexed_spell (by decide), by decide, inner_of_take (by decide)⟩
    (bodyOf_quiet (by decide) _)).2 (by decide)).mpr (by decide)

theorem complete_words (w v : Text) (hw : Word w) (hv : Word v) :
    Complete (w ++ ' ' :: (v ++ [';'])) [.word w, .word v] := by
  refine ⟨?_, ?_, fun before after hsplit => ?_⟩
  · exact .lexeme (.word hw rfl) (.space rfl (.lexeme (.word hv rfl) .semicolon))
  · exact lexemes_words_parens (fun l hl => by simp at hl; rcases hl with rfl | rfl <;> exact ⟨_, rfl⟩) {}
  · have hmem : Lexeme.char ';' ∈ [.word w, .word v] :=
      hsplit ▸ List.mem_append_right _ List.mem_cons_self
    simp at hmem

/-- A column named begin: the table that the script creates behind the statement is lost. -/
theorem select_begin_swallows :
    Complete "select begin;".toList [.word "select".toList, .word "begin".toList] ∧
      bodyOf [.word "select".toList, .word "begin".toList] = some [.word "begin".toList] ∧
      carriesNoSchema "select".toList = true ∧
      schemaOf ("select begin;".toList ++ "create table t(a int);".toList) = some {} ∧
      (schemaOf "create table t(a int);".toList).map (fun out => out.tables.length) = some 1 ∧
      ¬ Neutral "select begin;".toList := by
  have hswallowed : schemaOf ("select begin;".toList ++ "create table t(a int);".toList) =
      some {} := by decide
  have hread : (schemaOf "create table t(a int);".toList).map (fun out => out.tables.length) =
      some 1 := by decide
  refine ⟨complete_words "select".toList "begin".toList ⟨rfl, rfl⟩ ⟨rfl, rfl⟩, by decide,
    by decide, hswallowed, hread, fun hneutral => ?_⟩
  have hsame := hneutral "create table t(a int);".toList
  rw [hswallowed] at hsame
  rw [← hsame] at hread
  cases hread

/-- A marker of twenty characters: the body is closed, and the script is refused. -/
theorem long_marker_refused :
    schemaOf "select $function_body_text$ x $function_body_text$;".toList = none ∧
      ¬ Neutral "select $function_body_text$ x $function_body_text$;".toList := by
  have hrefused : schemaOf "select $function_body_text$ x $function_body_text$;".toList = none := by
    decide
  refine ⟨hrefused, fun hneutral => ?_⟩
  have hnil := hneutral []
  rw [List.append_nil, hrefused] at hnil
  cases hnil

end Small

end Uniorm.Ddl
