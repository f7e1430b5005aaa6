import Uniorm.Ddl.Lexeme

/-! # The scanner follows the lexemes

What each function of the scanner leaves of a text is told by the lexemes of
the text. Blanks come first: a text is settled when none stands in front of it,
and every function reads a text as it reads what is left of it behind the
blanks.
-/
namespace Uniorm.Ddl

open Foundation Foundation.Scan Sql Builder

variable {α : Type} {text piece : Text} {l : Lexeme}

theorem length_lt_of_drop {n : ℕ} (hn : 0 < n) (hne : text ≠ []) :
    (text.drop n).length < text.length := by
  have hpos := List.length_pos_iff.mpr hne
  rw [List.length_drop]
  omega

theorem read_skipLine (text : Text) :
    skipLine.read text = some ((), text.dropWhile (· != '\n')) := by
  have hleft := @List.drop_left _ (text.takeWhile (· != '\n')) (text.dropWhile (· != '\n'))
  rw [List.takeWhile_append_dropWhile] at hleft
  simp [skipLine, hleft]

theorem skipLine_consumes (h : lineComment text = true) {r : Unit × Text}
    (hr : skipLine.read text = some r) : r.2.length < text.length := by
  rw [read_skipLine] at hr
  obtain rfl := Option.some.inj hr
  unfold lineComment at h
  split at h
  · rename_i cs
    change (cs.dropWhile (· != '\n')).length < cs.length + 1
    exact Nat.lt_succ_of_le (List.dropWhile_suffix _).length_le
  · rename_i cs
    change (cs.dropWhile (· != '\n')).length < cs.length + 1 + 1
    exact Nat.lt_succ_of_le (Nat.le_succ_of_le (List.dropWhile_suffix _).length_le)
  · cases h

theorem skipBlock_consumes (h : blockComment text = true) {r : Unit × Text}
    (hr : skipBlock.read text = some r) : r.2.length < text.length := by
  have hne : text ≠ [] := by
    rintro rfl
    cases h
  cases hlength : blockLength (text.drop 2) with
  | none => simp [skipBlock, hlength] at hr
  | some n =>
    simp only [skipBlock, read_bind, read_peek, Option.bind_some, hlength, read_advance] at hr
    obtain rfl := Option.some.inj hr
    exact length_lt_of_drop (Nat.succ_pos _) hne

theorem dollarLength_pos [Dangling] {n : ℕ} (hne : text ≠ []) (h : dollarLength text = .ok n) :
    0 < n := by
  have htake : 0 < (text.take ((text.tail.takeWhile isTagChar).length + 2)).length := by
    have hpos := List.length_pos_iff.mpr hne
    rw [List.length_take]
    omega
  simp only [dollarLength] at h
  split at h
  · cases h
  · split at h
    · cases h
    · obtain rfl := Except.ok.inj h
      omega

theorem skipQuoted_consumes [Dangling] (hne : text ≠ []) {r : Unit × Text}
    (hr : skipQuoted.read text = some r) : r.2.length < text.length := by
  simp only [skipQuoted, read_bind, read_peek, Option.bind_some, read_ite] at hr
  split_ifs at hr with hdollar
  · cases hlength : dollarLength text with
    | error message => simp [hlength] at hr
    | ok n =>
      simp only [hlength, read_advance] at hr
      obtain rfl := Option.some.inj hr
      exact length_lt_of_drop (dollarLength_pos hne hlength) hne
  · cases hlength : text.head?.bind fun quote => quotedLength quote text.tail with
    | none => simp [hlength] at hr
    | some n =>
      simp only [hlength, read_advance] at hr
      obtain rfl := Option.some.inj hr
      exact length_lt_of_drop (Nat.succ_pos _) hne

theorem read_skipBlank (u : Unit) (text : Text) : (skipBlank u).read text =
    if text.head?.any isSpace then some (.inl (), text.drop 1)
    else if lineComment text then some (.inl (), text.dropWhile (· != '\n'))
    else if blockComment text then (skipBlock.read text).map fun r => (.inl (), r.2)
    else some (.inr (), text) := by
  simp only [skipBlank, read_bind, read_peek, Option.bind_some, read_ite, read_advance, read_pure,
    read_skipLine, Option.map_eq_bind, Function.comp_def]

theorem skipBlank_consumes (u : Unit) : (skipBlank u).Consumes := by
  intro text s rest h
  rw [read_skipBlank] at h
  split_ifs at h with hspace hline hblock
  · obtain ⟨-, rfl⟩ := Prod.mk.inj (Option.some.inj h)
    cases text with
    | nil => cases hspace
    | cons c cs => exact Nat.lt_succ_self _
  · obtain ⟨-, rfl⟩ := Prod.mk.inj (Option.some.inj h)
    exact skipLine_consumes hline (read_skipLine text)
  · obtain ⟨r, hr, h⟩ := Option.map_eq_some_iff.mp h
    obtain ⟨-, rfl⟩ := Prod.mk.inj h
    exact skipBlock_consumes hblock hr
  · cases h

theorem read_skipBlanks (text : Text) : skipBlanks.read text =
    ((skipBlank ()).read text).bind fun r => (Sum.elim (loop skipBlank) pure r.1).read r.2 :=
  read_loop skipBlank_consumes ()

/-- No blank stands in front of the text. -/
structure Settled (text : Text) : Prop where
  space : text.head?.any isSpace = false
  line : lineComment text = false
  block : blockComment text = false

theorem Settled.read_skipBlanks (h : Settled text) : skipBlanks.read text = some ((), text) := by
  rw [Ddl.read_skipBlanks, read_skipBlank, h.space, h.line, h.block]
  rfl

theorem settled_nil : Settled [] := ⟨rfl, rfl, rfl⟩

theorem read_skipBlanks_space {c : Char} (hc : isSpace c = true) (text : Text) :
    skipBlanks.read (c :: text) = skipBlanks.read text := by
  rw [Ddl.read_skipBlanks, read_skipBlank, List.head?_cons, Option.any_some, hc]
  rfl

theorem read_skipBlanks_line {opening inner : Text} (hopen : opening = ['#'] ∨ opening = ['-', '-'])
    (hinner : '\n' ∉ inner) (text : Text) :
    skipBlanks.read (opening ++ inner ++ '\n' :: text) = skipBlanks.read ('\n' :: text) := by
  have hline : lineComment (opening ++ inner ++ '\n' :: text) = true := by
    rcases hopen with rfl | rfl <;> rfl
  have hspace : (opening ++ inner ++ '\n' :: text).head?.any isSpace = false := by
    rcases hopen with rfl | rfl <;> rfl
  have hdrop : (opening ++ inner ++ '\n' :: text).dropWhile (· != '\n') = '\n' :: text := by
    rw [List.dropWhile_append_of_pos]
    · rfl
    · intro c hc
      rw [bne_iff_ne]
      rintro rfl
      rcases List.mem_append.mp hc with hmem | hmem
      · rcases hopen with rfl | rfl <;> simp at hmem
      · exact hinner hmem
  rw [Ddl.read_skipBlanks, read_skipBlank, hspace, hline, hdrop]
  rfl

theorem read_skipBlanks_block {inner : Text} (hinner : CommentRun inner) (text : Text) :
    skipBlanks.read ('/' :: '*' :: (inner ++ text)) = skipBlanks.read text := by
  have hblock : skipBlock.read ('/' :: '*' :: (inner ++ text)) = some ((), text) := by
    simp [skipBlock, blockLength_run hinner]
  rw [Ddl.read_skipBlanks, read_skipBlank, hblock]
  rfl

section Settled
variable (h : Settled text)
include h

theorem Settled.read_peekIs (ch : Char) :
    (peekIs ch).read text = some (text.head? == some ch, text) := by
  simp [peekIs, h.read_skipBlanks]

theorem Settled.read_eat (ch : Char) : (eat ch).read text =
    some (if text.head? = some ch then (true, text.drop 1) else (false, text)) := by
  by_cases hhead : text.head? = some ch <;> simp [eat, h.read_peekIs, hhead]

theorem Settled.read_eatKeyword {word : Text} (hword : Word word) : (eatKeyword word).read text =
    some (if foldLower (wordOf text) = foldLower word then (true, text.drop word.length)
      else (false, text)) := by
  by_cases hfold : foldLower (wordOf text) = foldLower word <;>
    simp [eatKeyword, peekKeyword, h.read_skipBlanks, startsKeyword_eq hword, hfold]

theorem Settled.read_here_word [Dangling] (hword : text.head?.any identStart = true) :
    here.read text = some (wordOf text, text.drop (wordOf text).length) := by
  have hne : text ≠ [] := fun hnil => by simp [hnil] at hword
  simp only [here, read_bind, read_peek, read_ite, read_advance, read_pure, h.read_skipBlanks,
    Option.bind_some, if_neg hne, if_pos hword]

theorem Settled.read_exhausted : exhausted.read text = some (text.isEmpty, text) := by
  simp [exhausted, h.read_skipBlanks]

end Settled

/-- A scan that skips blanks before it does anything else. -/
def SkipsFirst (x : Reading α) : Prop :=
  ∀ text text', skipBlanks.read text = some ((), text') → Settled text' → x.read text = x.read text'

theorem skipsFirst_skipBlanks : SkipsFirst skipBlanks := fun _ _ h h' => by
  rw [h, h'.read_skipBlanks]

theorem SkipsFirst.bind {β : Type} {x : Reading α} (h : SkipsFirst x) (f : α → Reading β) :
    SkipsFirst (x >>= f) := fun text text' hskip hsettled => by
  rw [read_bind, read_bind, h text text' hskip hsettled]

theorem skipsFirst_eat (ch : Char) : SkipsFirst (eat ch) :=
  (skipsFirst_skipBlanks.bind _).bind _

theorem skipsFirst_eatKeyword (word : Text) : SkipsFirst (eatKeyword word) :=
  (skipsFirst_skipBlanks.bind _).bind _

theorem skipsFirst_here [Dangling] : SkipsFirst here := skipsFirst_skipBlanks.bind _

theorem skipsFirst_exhausted : SkipsFirst exhausted := skipsFirst_skipBlanks.bind _

theorem settled_of_head {c : Char} (hspace : isSpace c = false) (hline : c ≠ '#' ∧ c ≠ '-')
    (hblock : c ≠ '/') (text : Text) : Settled (c :: text) := by
  refine ⟨hspace, ?_, ?_⟩
  · unfold lineComment
    split
    · simp_all
    · simp_all
    · rfl
  · unfold blockComment
    split
    · simp_all
    · rfl

theorem settled_of_quoteStart {c : Char} (h : quoteStart c = true) (text : Text) :
    Settled (c :: text) := by
  refine settled_of_head (isSpace_of_quoteStart h) ?_ ?_ text
  · constructor <;> rintro rfl <;> cases h
  · rintro rfl
    cases h

theorem settled_of_identStart {c : Char} (hc : identStart c = true) (text : Text) :
    Settled (c :: text) := by
  have hspace : isSpace c = false := by
    cases hspace : isSpace c with
    | false => rfl
    | true =>
      rw [identStart_of_isSpace hspace] at hc
      cases hc
  exact settled_of_head hspace ⟨ne_of_identStart hc rfl, ne_of_identStart hc rfl⟩
    (ne_of_identStart hc rfl) text

theorem settled_semicolon (text : Text) : Settled (';' :: text) := ⟨rfl, rfl, rfl⟩

theorem quoteStart_of_mem {quote : Char} (h : quote ∈ ['\'', '"', '\x60']) :
    quoteStart quote = true ∧ quote ≠ '$' ∧ quote ≠ '\\' := by
  simp only [List.mem_cons, List.not_mem_nil, or_false] at h
  rcases h with rfl | rfl | rfl <;> exact ⟨rfl, by decide, by decide⟩

theorem Word.eq_cons {w : Text} (h : Word w) : ∃ c cs, w = c :: cs ∧ identStart c = true := by
  cases w with
  | nil => cases h.start
  | cons c cs => exact ⟨c, cs, rfl, h.start⟩

theorem Piece.settled (h : Piece piece l text) : Settled (piece ++ text) := by
  cases h with
  | word hw =>
    obtain ⟨c, cs, rfl, hc⟩ := hw.eq_cons
    exact settled_of_identStart hc _
  | quoted hquote => exact settled_of_quoteStart (quoteStart_of_mem hquote).1 _
  | body => exact settled_of_quoteStart rfl _
  | dollar => exact settled_of_quoteStart rfl _
  | char h => exact ⟨h.space, h.line, h.block⟩

theorem Piece.wordOf_eq (h : Piece piece l text) :
    wordOf (piece ++ text) = l.wordText := by
  cases h with
  | word hw hends => exact wordOf_append hw hends
  | quoted hquote =>
    exact wordOf_of_not (identStart_of_quoteStart (quoteStart_of_mem hquote).1)
  | body => exact wordOf_of_not rfl
  | dollar => exact wordOf_of_not rfl
  | char h => exact wordOf_of_not h.word

theorem Piece.eq_wordText (h : Piece piece l text) (hne : l.wordText ≠ []) :
    piece = l.wordText := by
  cases h with
  | word => rfl
  | _ => exact absurd rfl hne

/-- A text of lexemes without its blanks: the text of the first lexeme stands in front. -/
theorem Lexed.cons_inv {s : Text} {ls : List Lexeme} (h : Lexed s (l :: ls)) :
    ∃ piece text, Piece piece l text ∧ Lexed text ls ∧
      ∀ r, skipBlanks.read (s ++ r) = some ((), piece ++ (text ++ r)) := by
  generalize hall : l :: ls = all at h
  induction h with
  | semicolon => cases hall
  | space hc _ ih =>
    obtain ⟨piece, text, hpiece, htext, hskip⟩ := ih hall
    refine ⟨piece, text, hpiece, htext, fun r => ?_⟩
    rw [List.cons_append, read_skipBlanks_space hc]
    exact hskip r
  | line hopen hinner _ ih =>
    obtain ⟨piece, text, hpiece, htext, hskip⟩ := ih hall
    refine ⟨piece, text, hpiece, htext, fun r => ?_⟩
    rw [List.append_assoc, List.cons_append, read_skipBlanks_line hopen hinner]
    exact hskip r
  | block hinner _ ih =>
    obtain ⟨piece, text, hpiece, htext, hskip⟩ := ih hall
    refine ⟨piece, text, hpiece, htext, fun r => ?_⟩
    rw [List.cons_append, List.cons_append, List.append_assoc, read_skipBlanks_block hinner]
    exact hskip r
  | lexeme hpiece h _ =>
    obtain ⟨rfl, rfl⟩ := List.cons.inj hall
    refine ⟨_, _, hpiece, h, fun r => ?_⟩
    rw [List.append_assoc]
    exact (hpiece.append h.ne_nil r).settled.read_skipBlanks

/-- A text without lexemes is blank up to its `;`. -/
theorem Lexed.nil_inv {s : Text} (h : Lexed s []) (r : Text) :
    skipBlanks.read (s ++ r) = some ((), ';' :: r) := by
  generalize hall : ([] : List Lexeme) = all at h
  induction h with
  | semicolon => exact (settled_semicolon r).read_skipBlanks
  | space hc _ ih =>
    rw [List.cons_append, read_skipBlanks_space hc]
    exact ih hall
  | line hopen hinner _ ih =>
    rw [List.append_assoc, List.cons_append, read_skipBlanks_line hopen hinner]
    exact ih hall
  | block hinner _ ih =>
    rw [List.cons_append, List.cons_append, List.append_assoc, read_skipBlanks_block hinner]
    exact ih hall
  | lexeme => cases hall

def eatWord (word : Text) : List Lexeme → Bool × List Lexeme
  | [] => (false, [])
  | l :: ls =>
    if foldLower l.wordText = foldLower word then (true, ls) else (false, l :: ls)

def eatWords (words : List Text) (ls : List Lexeme) : List Lexeme :=
  words.foldl (fun ls word => (eatWord word ls).2) ls

theorem Lexed.read_eatKeyword {s word : Text} {ls : List Lexeme} (h : Lexed s ls)
    (hword : Word word) : ∃ s', Lexed s' (eatWord word ls).2 ∧
      ∀ r, (eatKeyword word).read (s ++ r) = some ((eatWord word ls).1, s' ++ r) := by
  have hnil : foldLower ([] : Text) ≠ foldLower word := fun hfold => by
    have hempty := word_foldLower.mp (hfold ▸ word_foldLower.mpr hword)
    cases hempty.start
  cases ls with
  | nil =>
    refine ⟨[';'], .semicolon, fun r => ?_⟩
    rw [skipsFirst_eatKeyword word _ _ (h.nil_inv r) (settled_semicolon r),
      (settled_semicolon r).read_eatKeyword hword, wordOf_of_not rfl, if_neg hnil]
    rfl
  | cons l ls =>
    obtain ⟨piece, text, hpiece, htext, hskip⟩ := h.cons_inv
    have hread : ∀ r, (eatKeyword word).read (s ++ r) =
        some (if foldLower l.wordText = foldLower word
          then (true, (piece ++ (text ++ r)).drop word.length)
          else (false, piece ++ (text ++ r))) := fun r => by
      have happ := hpiece.append htext.ne_nil r
      rw [skipsFirst_eatKeyword word _ _ (hskip r) happ.settled,
        happ.settled.read_eatKeyword hword, happ.wordOf_eq]
    by_cases hfold : foldLower l.wordText = foldLower word
    · have hpieceText : piece = l.wordText := hpiece.eq_wordText fun hempty =>
        hnil (hempty ▸ hfold)
      have hlength : word.length = piece.length := by
        rw [← foldLower_length, ← hfold, foldLower_length, hpieceText]
      refine ⟨text, ?_, fun r => ?_⟩
      · rw [eatWord, if_pos hfold]
        exact htext
      · rw [hread, eatWord, if_pos hfold, if_pos hfold, hlength, List.drop_left]
    · refine ⟨piece ++ text, ?_, fun r => ?_⟩
      · rw [eatWord, if_neg hfold]
        exact .lexeme hpiece htext
      · rw [hread, eatWord, if_neg hfold, if_neg hfold, List.append_assoc]

theorem Lexed.read_eatKeywords {s : Text} {ls : List Lexeme} {words : List Text} (h : Lexed s ls)
    (hwords : ∀ word ∈ words, Word word) : ∃ s', Lexed s' (eatWords words ls) ∧
      ∀ r, (eatKeywords words).read (s ++ r) = some ((), s' ++ r) := by
  induction words generalizing s ls with
  | nil => exact ⟨s, h, fun _ => rfl⟩
  | cons word words ih =>
    obtain ⟨s', hs', hread⟩ := h.read_eatKeyword (hwords word List.mem_cons_self)
    obtain ⟨s'', hs'', hreads⟩ := ih hs' fun w hw => hwords w (List.mem_cons_of_mem _ hw)
    refine ⟨s'', hs'', fun r => ?_⟩
    rw [eatKeywords, read_bind, hread]
    exact hreads r

theorem Lexed.read_here [Dangling] {s w : Text} {ls : List Lexeme} (h : Lexed s (.word w :: ls)) :
    ∃ s', Lexed s' ls ∧ ∀ r, here.read (s ++ r) = some (w, s' ++ r) := by
  obtain ⟨piece, text, hpiece, htext, hskip⟩ := h.cons_inv
  refine ⟨text, htext, fun r => ?_⟩
  have happ := hpiece.append htext.ne_nil r
  cases hpiece with
  | word hw hends =>
    have hof : wordOf (w ++ (text ++ r)) = w := happ.wordOf_eq
    have hstart : (w ++ (text ++ r)).head?.any identStart = true := by
      obtain ⟨c, cs, rfl, hc⟩ := hw.eq_cons
      exact hc
    rw [skipsFirst_here _ _ (hskip r) happ.settled, happ.settled.read_here_word hstart, hof,
      List.drop_left]

/-- A word is no `;`. -/
theorem Lexed.read_eat_word {s w : Text} {ls : List Lexeme} (h : Lexed s (.word w :: ls)) :
    ∃ s', Lexed s' (.word w :: ls) ∧ ∀ r, (eat ';').read (s ++ r) = some (false, s' ++ r) := by
  obtain ⟨piece, text, hpiece, htext, hskip⟩ := h.cons_inv
  refine ⟨piece ++ text, .lexeme hpiece htext, fun r => ?_⟩
  have happ := hpiece.append htext.ne_nil r
  rw [skipsFirst_eat _ _ _ (hskip r) happ.settled, happ.settled.read_eat, if_neg, List.append_assoc]
  cases hpiece with
  | word hw hends =>
    obtain ⟨c, cs, rfl, hc⟩ := hw.eq_cons
    rw [List.cons_append, List.head?_cons, Option.some_inj]
    exact ne_of_identStart hc rfl

theorem Lexed.read_eat_nil {s : Text} (h : Lexed s []) (r : Text) :
    (eat ';').read (s ++ r) = some (true, r) := by
  rw [skipsFirst_eat _ _ _ (h.nil_inv r) (settled_semicolon r), (settled_semicolon r).read_eat]
  rfl

theorem Lexed.read_eat_semicolon {s : Text} {ls : List Lexeme} (h : Lexed s (.char ';' :: ls)) :
    ∃ s', Lexed s' ls ∧ ∀ r, (eat ';').read (s ++ r) = some (true, s' ++ r) := by
  obtain ⟨piece, text, hpiece, htext, hskip⟩ := h.cons_inv
  refine ⟨text, htext, fun r => ?_⟩
  have happ := hpiece.append htext.ne_nil r
  rw [skipsFirst_eat _ _ _ (hskip r) happ.settled, happ.settled.read_eat]
  cases hpiece with
  | char => rfl

theorem Lexed.read_exhausted {s : Text} {ls : List Lexeme} (h : Lexed s ls) :
    ∃ s', Lexed s' ls ∧ ∀ r, exhausted.read (s ++ r) = some (false, s' ++ r) := by
  cases ls with
  | nil =>
    refine ⟨[';'], .semicolon, fun r => ?_⟩
    rw [skipsFirst_exhausted _ _ (h.nil_inv r) (settled_semicolon r),
      (settled_semicolon r).read_exhausted]
    rfl
  | cons l ls =>
    obtain ⟨piece, text, hpiece, htext, hskip⟩ := h.cons_inv
    have hstays : Lexed (piece ++ text) (l :: ls) := .lexeme hpiece htext
    refine ⟨piece ++ text, hstays, fun r => ?_⟩
    have happ := hpiece.append htext.ne_nil r
    have hne : piece ++ text ++ r ≠ [] := List.append_ne_nil_of_left_ne_nil hstays.ne_nil r
    rw [skipsFirst_exhausted _ _ (hskip r) happ.settled, happ.settled.read_exhausted,
      ← List.append_assoc, List.isEmpty_eq_false_iff.mpr hne]

namespace Depth

def lexeme (d : Depth) : Lexeme → Depth
  | .word w => d.word w
  | .char c => d.char c
  | _ => d

def lexemes (d : Depth) (ls : List Lexeme) : Depth := ls.foldl lexeme d

@[simp] theorem lexemes_nil (d : Depth) : d.lexemes [] = d := rfl

@[simp] theorem lexemes_cons (d : Depth) (l : Lexeme) (ls : List Lexeme) :
    d.lexemes (l :: ls) = (d.lexeme l).lexemes ls := rfl

@[simp] theorem lexemes_append (d : Depth) (ls ls' : List Lexeme) :
    d.lexemes (ls ++ ls') = (d.lexemes ls).lexemes ls' := List.foldl_append ..

/-- No `;` of the lexemes ends the statement. -/
def Inside (d : Depth) (ls : List Lexeme) : Prop :=
  ∀ before after, ls = before ++ .char ';' :: after → d.lexemes before ≠ {}

theorem Inside.head {d : Depth} {ls : List Lexeme} (h : d.Inside (.char ';' :: ls)) : d ≠ {} :=
  h [] ls rfl

theorem Inside.tail {d : Depth} {l : Lexeme} {ls : List Lexeme} (h : d.Inside (l :: ls)) :
    (d.lexeme l).Inside ls := fun before after hsplit => h (l :: before) after (by rw [hsplit]; rfl)

theorem inside_nil (d : Depth) : d.Inside [] := fun _ _ hsplit =>
  absurd hsplit.symm (List.append_ne_nil_of_right_ne_nil _ (List.cons_ne_nil _ _))

theorem inside_cons {d : Depth} {l : Lexeme} {ls : List Lexeme} :
    d.Inside (l :: ls) ↔ (l = .char ';' → d ≠ {}) ∧ (d.lexeme l).Inside ls := by
  constructor
  · intro h
    refine ⟨fun hl => ?_, h.tail⟩
    subst hl
    exact h.head
  · rintro ⟨hhead, htail⟩ before after hsplit
    cases before with
    | nil => exact hhead (List.cons.inj hsplit).1
    | cons l' before =>
      obtain ⟨hl, hls⟩ := List.cons.inj hsplit
      subst hl
      exact htail before after hls

instance instDecidableInside : ∀ (d : Depth) (ls : List Lexeme), Decidable (d.Inside ls)
  | d, [] => .isTrue (inside_nil d)
  | d, l :: ls =>
    haveI : Decidable ((d.lexeme l).Inside ls) := instDecidableInside (d.lexeme l) ls
    decidable_of_iff _ inside_cons.symm

end Depth

theorem read_endAt_cons [Dangling] (d : Depth) (c : Char) (cs : Text) : (endAt d).read (c :: cs) =
    if c = ';' then some (if d = {} then .inr () else .inl d, cs)
    else if quoteStart c then (skipQuoted.read (c :: cs)).map fun r => (.inl d, r.2)
    else if identStart c then
      some (.inl (d.word (wordOf (c :: cs))), (c :: cs).drop (wordOf (c :: cs)).length)
    else some (.inl (d.char c), cs) := by
  simp only [endAt, read_bind, read_peek, Option.bind_some, read_ite, read_advance, read_pure,
    beq_iff_eq, Option.map_eq_bind, Function.comp_def, List.drop_succ_cons, List.drop_zero]

theorem endStep_consumes [Dangling] (d : Depth) : (endStep d).Consumes := by
  intro text s rest h
  rw [endStep, read_bind] at h
  obtain ⟨⟨u, text'⟩, hskip, h⟩ := Option.bind_eq_some_iff.mp h
  refine Nat.lt_of_lt_of_le ?_ (read_length_le hskip)
  cases text' with
  | nil => cases h
  | cons c cs =>
    rw [read_endAt_cons] at h
    split_ifs at h with hsemi hstart hquote hword
    · cases h
    · obtain ⟨-, rfl⟩ := Prod.mk.inj (Option.some.inj h)
      exact Nat.lt_succ_self _
    · obtain ⟨r, hr, h⟩ := Option.map_eq_some_iff.mp h
      obtain ⟨-, rfl⟩ := Prod.mk.inj h
      exact skipQuoted_consumes (List.cons_ne_nil _ _) hr
    · obtain ⟨-, rfl⟩ := Prod.mk.inj (Option.some.inj h)
      refine length_lt_of_drop ?_ (List.cons_ne_nil _ _)
      rw [wordOf, List.head?_cons, Option.any_some, if_pos hword,
        List.takeWhile_cons_of_pos (identChar_of_identStart hword)]
      exact Nat.succ_pos _
    · obtain ⟨-, rfl⟩ := Prod.mk.inj (Option.some.inj h)
      exact Nat.lt_succ_self _

theorem read_skipQuoted_of_length [Dangling] {quote : Char} {cs : Text} {n : ℕ} (hdollar : quote ≠ '$')
    (h : quotedLength quote cs = some n) : skipQuoted.read (quote :: cs) = some ((), cs.drop n) := by
  have hhead : some quote ≠ some '$' := fun hd => hdollar (Option.some.inj hd)
  simp only [skipQuoted, read_bind, read_peek, Option.bind_some, read_ite, List.head?_cons,
    if_neg hhead, List.tail_cons, h, read_advance, List.drop_succ_cons]

theorem read_skipQuoted_dollar [Dangling] (hhead : text.head? = some '$') : skipQuoted.read text =
    (dollarLength text).toOption.map fun n => ((), text.drop n) := by
  simp only [skipQuoted, read_bind, read_peek, Option.bind_some, read_ite, if_pos hhead]
  cases dollarLength text with
  | error message =>
    rw [read_fail]
    rfl
  | ok n =>
    rw [read_advance]
    rfl

/-- A lexeme that begins with a quote or a `$`. -/
def Lexeme.isQuoted : Lexeme → Bool
  | quoted => true
  | body _ => true
  | dollar => true
  | _ => false

theorem Lexeme.isQuoted_of_lone (h : l.lone = true) : l.isQuoted = true := by
  cases l <;> first | rfl | cases h

theorem Piece.quoted_cons (h : Piece piece l text) (hquoted : l.isQuoted = true) :
    ∃ c cs, piece = c :: cs ∧ quoteStart c = true := by
  cases h with
  | quoted hquote => exact ⟨_, _, rfl, (quoteStart_of_mem hquote).1⟩
  | body => exact ⟨_, _, rfl, rfl⟩
  | dollar => exact ⟨_, _, rfl, rfl⟩
  | _ => cases hquoted

theorem Piece.read_skipQuoted [Dangling] (h : Piece piece l text) (hquoted : l.isQuoted = true)
    (hl : l.Sound) : skipQuoted.read (piece ++ text) = some ((), text) := by
  cases h with
  | quoted hquote hrun hnext =>
    obtain ⟨-, hdollar, hbackslash⟩ := quoteStart_of_mem hquote
    rw [List.cons_append, read_skipQuoted_of_length hdollar (quotedLength_run hbackslash hrun hnext),
      List.drop_left]
  | @body tag inner _ htag hfirst =>
    have hhead : (marker tag ++ inner ++ marker tag ++ text).head? = some '$' := rfl
    rw [read_skipQuoted_dollar hhead, dollarLength_body htag hl hfirst]
    exact congrArg (fun t => some ((), t)) List.drop_left
  | dollar => exact hl.elim
  | _ => cases hquoted

theorem Piece.read_skipQuoted_dollar [Dangling] (h : Piece piece .dollar text) :
    skipQuoted.read (piece ++ text) = none := by
  cases h with
  | @dollar tag rest c htag hc hne =>
    have hhead : (['$'] ++ (tag ++ c :: rest)).head? = some '$' := rfl
    have hstray : dollarLength (['$'] ++ (tag ++ c :: rest)) =
        .error "'$' starts no quoted body".toList := dollarLength_stray htag hc hne
    rw [Ddl.read_skipQuoted_dollar hhead, hstray]
    rfl

/-- No `$` that stands alone is gone over where the markers are lost. -/
theorem Piece.read_skipQuoted_lost [Dangling] (hlost : ∀ gone, Dangling.bytes gone = none)
    (h : Piece piece l text) (hl : l.lone = true) : skipQuoted.read (piece ++ text) = none := by
  cases h with
  | @body tag inner _ htag hfirst =>
    have hhead : (marker tag ++ (inner ++ marker tag ++ text)).head? = some '$' := rfl
    rw [List.append_assoc, List.append_assoc, ← List.append_assoc inner,
      Ddl.read_skipQuoted_dollar hhead, dollarLength_lost htag (hlost _)]
    rfl
  | dollar htag hc hne => exact (Piece.dollar htag hc hne).read_skipQuoted_dollar
  | _ => cases hl

theorem quoteStart_of_identStart {c : Char} (h : identStart c = true) : quoteStart c = false := by
  cases hquote : quoteStart c with
  | false => rfl
  | true =>
    rw [identStart_of_quoteStart hquote] at h
    cases h

theorem ne_semicolon_of_quoteStart {c : Char} (h : quoteStart c = true) : c ≠ ';' := by
  rintro rfl
  cases h

theorem Lexeme.depth_of_isQuoted (h : l.isQuoted = true) (d : Depth) :
    d.lexeme l = d ∧ ∀ c, l ≠ .char c := by
  cases l with
  | word => cases h
  | char => cases h
  | _ => exact ⟨rfl, fun c hc => by cases hc⟩

/-- One round of `statement_end` at a quote or a `$`. -/
theorem Piece.read_endAt_quoted [Dangling] (h : Piece piece l text) (hquoted : l.isQuoted = true)
    (d : Depth) : (endAt d).read (piece ++ text) =
      (skipQuoted.read (piece ++ text)).map fun r => (.inl (d.lexeme l), r.2) := by
  obtain ⟨c, cs, rfl, hc⟩ := h.quoted_cons hquoted
  rw [List.cons_append, read_endAt_cons, if_neg (ne_semicolon_of_quoteStart hc), if_pos hc,
    (Lexeme.depth_of_isQuoted hquoted d).1]

/-- One round of `statement_end`: one lexeme, where the scanner goes over it as it is. -/
theorem Piece.read_endAt [Dangling] (h : Piece piece l text) (hl : l.Sound) (d : Depth) :
    (endAt d).read (piece ++ text) =
      some (if l = .char ';' ∧ d = {} then .inr () else .inl (d.lexeme l), text) := by
  cases hquoted : l.isQuoted with
  | true =>
    rw [h.read_endAt_quoted hquoted, h.read_skipQuoted hquoted hl, if_neg]
    · rfl
    · rintro ⟨hsemi, -⟩
      exact (Lexeme.depth_of_isQuoted hquoted d).2 ';' hsemi
  | false =>
    cases h with
    | word hw hends =>
      obtain ⟨c, cs, rfl, hc⟩ := hw.eq_cons
      have hof := wordOf_append hw hends
      rw [List.cons_append] at hof ⊢
      rw [read_endAt_cons, if_neg (ne_of_identStart hc rfl), quoteStart_of_identStart hc, if_neg
        Bool.false_ne_true, if_pos hc, hof, ← List.cons_append, List.drop_left, if_neg]
      · rfl
      · rintro ⟨hsemi, -⟩
        cases hsemi
    | @char c _ h =>
      rw [List.singleton_append, read_endAt_cons, h.quote, h.word]
      by_cases hsemi : c = ';'
      · subst hsemi
        by_cases hd : d = {}
        · rw [if_pos rfl, if_pos hd, if_pos ⟨rfl, hd⟩]
        · rw [if_pos rfl, if_neg hd, if_neg fun hboth => hd hboth.2]
          rfl
      · rw [if_neg hsemi, if_neg Bool.false_ne_true, if_neg Bool.false_ne_true, if_neg]
        · rfl
        · rintro ⟨hchar, -⟩
          exact hsemi (Lexeme.char.inj hchar)
    | _ => cases hquoted

theorem Piece.read_endAt_lost [Dangling] (hlost : ∀ gone, Dangling.bytes gone = none)
    (h : Piece piece l text) (hl : l.lone = true) (d : Depth) :
    (endAt d).read (piece ++ text) = none := by
  rw [h.read_endAt_quoted (Lexeme.isQuoted_of_lone hl), h.read_skipQuoted_lost hlost hl]
  rfl

theorem read_endStep_of_skip [Dangling] {s t : Text} (h : skipBlanks.read s = some ((), t)) (d : Depth) :
    (endStep d).read s = (endAt d).read t := by
  rw [endStep, read_bind, h, Option.bind_some]

/-- `statement_end` goes over the lexemes of a text no `;` of which ends the statement, and ends
with the text if it comes to its end in no parenthesis and in no block. -/
theorem Lexed.read_end [Dangling] {s : Text} {ls : List Lexeme} (h : Lexed s ls) {d : Depth}
    (hinside : d.Inside ls) (hsound : ∀ l ∈ ls, l.Sound) (r : Text) :
    (loop endStep d).read (s ++ r) =
      if d.lexemes ls = {} then some ((), r) else (loop endStep (d.lexemes ls)).read r := by
  induction ls generalizing s d with
  | nil =>
    rw [read_loop endStep_consumes, read_endStep_of_skip (h.nil_inv r), read_endAt_cons, if_pos rfl,
      Depth.lexemes_nil]
    split_ifs <;> rfl
  | cons l ls ih =>
    obtain ⟨hl, hls⟩ := List.forall_mem_cons.mp hsound
    obtain ⟨piece, text, hpiece, htext, hskip⟩ := h.cons_inv
    have happ := hpiece.append htext.ne_nil r
    have hgo : ¬ (l = .char ';' ∧ d = {}) := by
      rintro ⟨rfl, hd⟩
      exact hinside.head hd
    rw [read_loop endStep_consumes, read_endStep_of_skip (hskip r), happ.read_endAt hl, if_neg hgo]
    exact ih htext hinside.tail hls

/-- A `$` on its own in front of the end of the statement makes the script fail where the markers
are lost. -/
theorem Lexed.read_end_lost [Dangling] (hlost : ∀ gone, Dangling.bytes gone = none) {s : Text}
    {before after : List Lexeme} (h : Lexed s (before ++ after)) {d : Depth}
    (hinside : d.Inside before) (hlone : before.any Lexeme.lone = true) (r : Text) :
    (loop endStep d).read (s ++ r) = none := by
  induction before generalizing s d with
  | nil => cases hlone
  | cons l before ih =>
    obtain ⟨piece, text, hpiece, htext, hskip⟩ := h.cons_inv
    have happ := hpiece.append htext.ne_nil r
    rw [read_loop endStep_consumes, read_endStep_of_skip (hskip r)]
    cases hl : l.lone with
    | true =>
      rw [happ.read_endAt_lost hlost hl]
      rfl
    | false =>
      have hgo : ¬ (l = .char ';' ∧ d = {}) := by
        rintro ⟨rfl, hd⟩
        exact hinside.head hd
      rw [List.any_cons, hl, Bool.false_or] at hlone
      rw [happ.read_endAt (Lexeme.sound_of_lone hl), if_neg hgo]
      exact ih htext hinside.tail hlone

end Uniorm.Ddl
