import Uniorm.Ddl.Value

/-! # The tokens of a text

Every text begins with tokens: words, quoted runs and single characters, with
blanks and comments between them. They go on to the end of the text, or to a
quoted run or a comment that the text ends inside of. A function that hunts for
punctuation should stop at the first token it hunts for, and a loop that takes
one token after the other does.
-/
namespace Uniorm.Ddl

open Foundation Foundation.Scan Sql Builder

variable {α σ : Type} {text rest : Text} {l : Lexeme} {ls ls' : List Lexeme}

inductive Unclosed (quote : Char) : Text → Prop where
  | nil : Unclosed quote []
  | doubled {t : Text} (h : Unclosed quote t) : Unclosed quote (quote :: quote :: t)
  | escape (hquote : quote = '\'') : Unclosed quote ['\\']
  | escaped {c : Char} {t : Text} (hquote : quote = '\'') (h : Unclosed quote t) :
    Unclosed quote ('\\' :: c :: t)
  | other {c : Char} {t : Text} (hc : c ≠ quote) (hescape : ¬ (c = '\\' ∧ quote = '\''))
    (h : Unclosed quote t) : Unclosed quote (c :: t)

/-- A text that ends inside the quoted run or the block comment it begins with. -/
inductive EndsInside : Text → Prop where
  | quoted {quote : Char} {t : Text} (hquote : quote ∈ ['\'', '"', '\x60']) (h : Unclosed quote t) :
    EndsInside (quote :: t)
  | body {tag t : Text} (htag : tag.all isTagChar = true) (h : ¬ marker tag <:+: t) :
    EndsInside (marker tag ++ t)
  | block {t : Text} (h : ¬ ['*', '/'] <:+: t) : EndsInside ('/' :: '*' :: t)

inductive Tokens : Text → List Lexeme → Text → Prop where
  | nil {text : Text} : Tokens text [] text
  | space {c : Char} {text rest : Text} {ls : List Lexeme} (hc : isSpace c = true)
    (h : Tokens text ls rest) : Tokens (c :: text) ls rest
  | line {opening inner text rest : Text} {ls : List Lexeme}
    (hopen : opening = ['#'] ∨ opening = ['-', '-']) (hinner : '\n' ∉ inner)
    (hend : text.head?.all (· == '\n') = true) (h : Tokens text ls rest) :
    Tokens (opening ++ inner ++ text) ls rest
  | block {inner text rest : Text} {ls : List Lexeme} (hinner : CommentRun inner)
    (h : Tokens text ls rest) : Tokens ('/' :: '*' :: (inner ++ text)) ls rest
  | lexeme {piece text rest : Text} {l : Lexeme} {ls : List Lexeme} (hpiece : Piece piece l text)
    (h : Tokens text ls rest) : Tokens (piece ++ text) (l :: ls) rest
  /-- The last `$` of a text starts no quoted body. -/
  | dollar {tag rest : Text} {ls : List Lexeme} (htag : tag.all isTagChar = true)
    (h : Tokens tag ls rest) : Tokens ('$' :: tag) (.dollar :: ls) rest

/-- What a function hunts for: the punctuation that ends it in a state, and the state behind a
token. -/
structure Hunt (σ : Type) where
  stop : σ → Char → Bool
  next : σ → Lexeme → σ
  punctuation : ∀ s c, stop s c = true → c = ',' ∨ c = ')' ∨ c = ';'

namespace Hunt
variable (h : Hunt σ)

def Stops (s : σ) : Lexeme → Prop
  | .char c => h.stop s c = true
  | _ => False

def behind (s : σ) (ls : List Lexeme) : σ := ls.foldl h.next s

/-- None of the tokens ends the hunt. -/
def Passes : σ → List Lexeme → Prop
  | _, [] => True
  | s, l :: ls => ¬ h.Stops s l ∧ Passes (h.next s l) ls

/-- Behind the tokens stands the first one that ends the hunt. -/
structure EndsAt (s : σ) (text : Text) (ls : List Lexeme) (rest : Text) : Prop where
  tokens : Tokens text ls rest
  passes : h.Passes s ls
  stops : rest.head?.any (h.stop (h.behind s ls)) = true

def Exhausts (s : σ) (text : Text) (ls : List Lexeme) : Prop := Tokens text ls [] ∧ h.Passes s ls

/-- The text ends inside a quoted run or a block comment, with no end of the hunt in front of it. -/
def EndsOpen (s : σ) (text : Text) : Prop :=
  ∃ ls rest, Tokens text ls rest ∧ h.Passes s ls ∧ EndsInside rest

end Hunt

theorem quotedRun_or_unclosed {quote : Char} (hquote : quote ≠ '\\') (text : Text) :
    (∃ run t, text = run ++ t ∧ QuotedRun quote run ∧ t.head? ≠ some quote) ∨
      Unclosed quote text := by
  induction text using quotedLength.induct quote with
  | case1 => exact .inr .nil
  | case2 c hc =>
    obtain rfl : c = quote := by simpa using hc
    exact .inl ⟨[c], [], rfl, .close, by simp⟩
  | case3 c hc =>
    have hne : c ≠ quote := by simpa using hc
    by_cases hescape : c = '\\' ∧ quote = '\''
    · obtain ⟨rfl, rfl⟩ := hescape
      exact .inr (.escape rfl)
    · exact .inr (.other hne hescape .nil)
  | case4 c d cs hescape ih =>
    obtain ⟨rfl, rfl⟩ : c = '\\' ∧ quote = '\'' := by simpa using hescape
    rcases ih with ⟨run, t, rfl, hrun, hnext⟩ | hopen
    · exact .inl ⟨'\\' :: d :: run, t, rfl, .escaped rfl hrun, hnext⟩
    · exact .inr (.escaped rfl hopen)
  | case5 c d cs hescape hc hd ih =>
    obtain rfl : c = quote := by simpa using hc
    obtain rfl : d = c := by simpa using hd
    rcases ih with ⟨run, t, rfl, hrun, hnext⟩ | hopen
    · exact .inl ⟨d :: d :: run, t, rfl, .doubled hrun, hnext⟩
    · exact .inr (.doubled hopen)
  | case6 c d cs hescape hc hd =>
    obtain rfl : c = quote := by simpa using hc
    have hne : d ≠ c := by simpa using hd
    exact .inl ⟨[c], d :: cs, rfl, .close, fun heq => hne (Option.some.inj heq)⟩
  | case7 c d cs hescape hc ih =>
    have hne : c ≠ quote := by simpa using hc
    have hplain : ¬ (c = '\\' ∧ quote = '\'') := by simpa using hescape
    rcases ih with ⟨run, t, htext, hrun, hnext⟩ | hopen
    · exact .inl ⟨c :: run, t, congrArg (c :: ·) htext, .other hne hplain hrun, hnext⟩
    · exact .inr (.other hne hplain hopen)

theorem exists_lineComment (h : lineComment text = true) : ∃ opening inner t,
    (opening = ['#'] ∨ opening = ['-', '-']) ∧ '\n' ∉ inner ∧
      t.head?.all (· == '\n') = true ∧ text = opening ++ inner ++ t := by
  have hrun : ∀ cs : Text, '\n' ∉ cs.takeWhile (· != '\n') ∧
      (cs.dropWhile (· != '\n')).head?.all (· == '\n') = true := by
    intro cs
    constructor
    · intro hmem
      simpa using List.mem_takeWhile_imp hmem
    · have hnot := List.head?_dropWhile_not (· != '\n') cs
      cases hhead : (cs.dropWhile (· != '\n')).head? with
      | none => rfl
      | some d =>
        rw [hhead] at hnot
        simpa using hnot
  unfold lineComment at h
  split at h
  · rename_i cs
    refine ⟨['#'], _, _, .inl rfl, (hrun cs).1, (hrun cs).2, ?_⟩
    rw [List.append_assoc, List.takeWhile_append_dropWhile]
    rfl
  · rename_i cs
    refine ⟨['-', '-'], _, _, .inr rfl, (hrun cs).1, (hrun cs).2, ?_⟩
    rw [List.append_assoc, List.takeWhile_append_dropWhile]
    rfl
  · cases h

theorem exists_blockComment (h : blockComment text = true) : ∃ t, text = '/' :: '*' :: t := by
  unfold blockComment at h
  split at h
  · exact ⟨_, rfl⟩
  · cases h

theorem commentRun_or_open (text : Text) :
    (∃ inner t, text = inner ++ t ∧ CommentRun inner) ∨ ¬ ['*', '/'] <:+: text := by
  induction text using blockLength.induct with
  | case1 => exact .inr (by simp)
  | case2 cs => exact .inl ⟨['*', '/'], cs, rfl, .close⟩
  | case3 c cs hclose ih =>
    rcases ih with ⟨inner, t, rfl, hinner⟩ | hopen
    · cases hinner with
      | close => exact .inl ⟨[c, '*', '/'], t, rfl, .other (by simp) .close⟩
      | @other a b u hab hu =>
        refine .inl ⟨c :: a :: b :: u, t, rfl, .other ?_ (.other hab hu)⟩
        rintro ⟨rfl, rfl⟩
        exact hclose _ rfl rfl
    · right
      rw [List.infix_cons_iff, not_or]
      refine ⟨?_, hopen⟩
      rintro ⟨t, ht⟩
      obtain ⟨rfl, rfl⟩ := List.cons.inj ht
      exact hclose t rfl rfl

/-- What is cut off in front of the first place of a separator has none in it. -/
theorem first_of_breakOn {sep : Text} {r : Text × Text} (h : breakOn sep text = some r) (a b : Text)
    (hab : r.1 ++ sep = a ++ sep ++ b) : b = [] := by
  have hfirst : r.1.length ≤ a.length := by
    refine breakOn_first h (b := b ++ r.2) ?_
    rw [breakOn_eq h, hab, List.append_assoc]
  have hlength := congrArg List.length hab
  simp only [List.length_append] at hlength
  exact List.eq_nil_of_length_eq_zero (by omega)

theorem body_or_open {tag : Text} (htag : tag.all isTagChar = true) (text : Text) :
    (∃ inner t, marker tag ++ text = marker tag ++ inner ++ marker tag ++ t ∧
        Piece (marker tag ++ inner ++ marker tag) (.body tag) t) ∨ EndsInside (marker tag ++ text) := by
  have hne : marker tag ≠ [] := List.cons_ne_nil _ _
  cases hbreak : breakOn (marker tag) text with
  | none =>
    right
    refine .body htag ?_
    rintro ⟨a, b, rfl⟩
    have hsome := breakOn_isSome hne a b
    rw [hbreak] at hsome
    cases hsome
  | some r =>
    left
    have hsplit := breakOn_eq hbreak
    refine ⟨r.1, r.2, ?_, .body htag (first_of_breakOn hbreak)⟩
    rw [List.append_assoc, List.append_assoc, ← List.append_assoc r.1, ← hsplit]

theorem Piece.ne_nil {piece : Text} (h : Piece piece l text) : piece ≠ [] := by
  cases h with
  | word hw =>
    obtain ⟨c, cs, rfl, -⟩ := hw.eq_cons
    exact List.cons_ne_nil _ _
  | _ => exact List.cons_ne_nil _ _

theorem Piece.eq_word {piece w : Text} (h : Piece piece (.word w) text) : piece = w ∧ Word w := by
  cases h with
  | word hw => exact ⟨rfl, hw⟩

/-- What a text begins with that has no blank in front. -/
theorem Settled.exists_piece {c : Char} {cs : Text} (h : Settled (c :: cs)) :
    (∃ piece l t, c :: cs = piece ++ t ∧ Piece piece l t) ∨
      (c = '$' ∧ cs.all isTagChar = true) ∨ EndsInside (c :: cs) := by
  by_cases hword : identStart c = true
  · left
    refine ⟨(c :: cs).takeWhile identChar, _, (c :: cs).dropWhile identChar,
      List.takeWhile_append_dropWhile.symm, .word ⟨?_, ?_⟩ ?_⟩
    · rw [List.takeWhile_cons_of_pos (identChar_of_identStart hword)]
      exact hword
    · exact List.all_takeWhile
    · have hnot := List.head?_dropWhile_not identChar (c :: cs)
      unfold EndsWord
      cases hhead : ((c :: cs).dropWhile identChar).head? with
      | none => rfl
      | some d =>
        rw [hhead] at hnot
        simpa using hnot
  by_cases hdollar : c = '$'
  · subst hdollar
    rcases dollar_cases cs with ⟨tag, t, htext, htag⟩ | ⟨tag, d, t, rfl, htag, hd, hne⟩ | htag
    · rw [htext]
      rcases body_or_open htag t with ⟨inner, t', ht, hpiece⟩ | hopen
      · exact .inl ⟨_, _, t', ht, hpiece⟩
      · exact .inr (.inr hopen)
    · exact .inl ⟨['$'], .dollar, _, rfl, .dollar htag hd hne⟩
    · exact .inr (.inl ⟨rfl, htag⟩)
  by_cases hquote : quoteStart c = true
  · have hmem : c ∈ ['\'', '"', '\x60'] := by
      simpa [quoteStart, hdollar, or_assoc] using hquote
    rcases quotedRun_or_unclosed (quoteStart_of_mem hmem).2.2 cs with
      ⟨run, t, rfl, hrun, hnext⟩ | hopen
    · exact .inl ⟨c :: run, _, t, rfl, .quoted hmem hrun hnext⟩
    · exact .inr (.inr (.quoted hmem hopen))
  · exact .inl ⟨[c], _, cs, rfl, .char ⟨h.space, by simpa using hword, by simpa using hquote, h.line,
      h.block⟩⟩

namespace Hunt
variable {h : Hunt σ} {s : σ}

theorem behind_append : h.behind s (ls ++ ls') = h.behind (h.behind s ls) ls' := List.foldl_append ..

theorem passes_append : h.Passes s (ls ++ ls') ↔ h.Passes s ls ∧ h.Passes (h.behind s ls) ls' := by
  induction ls generalizing s with
  | nil => exact by simp [Passes, behind]
  | cons l ls ih => rw [List.cons_append, Passes, ih, Passes, and_assoc, behind, behind, List.foldl_cons]

def Decided (h : Hunt σ) (s : σ) (text : Text) : Prop :=
  (∃ ls rest, h.EndsAt s text ls rest) ∨ (∃ ls, h.Exhausts s text ls) ∨ h.EndsOpen s text

theorem Decided.front {text' : Text} (ls : List Lexeme) (hpass : h.Passes s ls)
    (htokens : ∀ ls' rest, Tokens text ls' rest → Tokens text' (ls ++ ls') rest)
    (hd : h.Decided (h.behind s ls) text) : h.Decided s text' := by
  rcases hd with ⟨ls', rest, hat⟩ | ⟨ls', hto, hpass'⟩ | ⟨ls', rest, hto, hpass', hopen⟩
  · refine .inl ⟨ls ++ ls', rest, htokens _ _ hat.tokens, passes_append.mpr ⟨hpass, hat.passes⟩, ?_⟩
    rw [behind_append]
    exact hat.stops
  · exact .inr (.inl ⟨ls ++ ls', htokens _ _ hto, passes_append.mpr ⟨hpass, hpass'⟩⟩)
  · exact .inr (.inr ⟨ls ++ ls', rest, htokens _ _ hto, passes_append.mpr ⟨hpass, hpass'⟩, hopen⟩)

/-- A hunt meets its end, the end of the text, or a run or a comment that the text ends inside of. -/
theorem decided (h : Hunt σ) (s : σ) (text : Text) : h.Decided s text := by
  induction hn : text.length using Nat.strong_induction_on generalizing s text with
  | _ n ih =>
    have hshorter : ∀ t : Text, t.length < n → ∀ s, h.Decided s t := fun t ht s => ih _ ht s t rfl
    cases text with
    | nil => exact .inr (.inl ⟨[], .nil, trivial⟩)
    | cons c cs =>
      have hlength : cs.length < n := hn ▸ Nat.lt_succ_self _
      by_cases hspace : isSpace c = true
      · exact (hshorter cs hlength s).front [] trivial fun _ _ => .space hspace
      by_cases hline : lineComment (c :: cs) = true
      · obtain ⟨opening, inner, text, hopen, hinner, hend, htext⟩ := exists_lineComment hline
        have hlt : text.length < n := by
          rw [← hn, htext]
          rcases hopen with rfl | rfl <;>
            (simp only [List.length_append, List.length_cons, List.length_nil]; omega)
        rw [htext]
        exact (hshorter text hlt s).front [] trivial fun _ _ => .line hopen hinner hend
      by_cases hblock : blockComment (c :: cs) = true
      · obtain ⟨text, htext⟩ := exists_blockComment hblock
        rw [htext]
        rcases commentRun_or_open text with ⟨inner, t, rfl, hinner⟩ | hopen
        · have hlt : t.length < n := by
            rw [← hn, htext]
            simp
            omega
          exact (hshorter t hlt s).front [] trivial fun _ _ => .block hinner
        · exact .inr (.inr ⟨[], _, .nil, trivial, .block hopen⟩)
      have hsettled : Settled (c :: cs) :=
        ⟨by simpa using hspace, by simpa using hline, by simpa using hblock⟩
      rcases hsettled.exists_piece with ⟨piece, l, t, htext, hpiece⟩ | ⟨rfl, htag⟩ | hopen
      · by_cases hstop : h.Stops s l
        · refine .inl ⟨[], c :: cs, .nil, trivial, ?_⟩
          cases hpiece with
          | char =>
            obtain ⟨rfl, rfl⟩ := List.cons.inj htext
            exact hstop
          | _ => exact hstop.elim
        · have hlt : t.length < n := by
            have hpos := List.length_pos_iff.mpr hpiece.ne_nil
            rw [← hn, htext, List.length_append]
            omega
          rw [htext]
          exact (hshorter t hlt (h.next s l)).front [l] ⟨hstop, trivial⟩ fun _ _ =>
            .lexeme hpiece
      · exact (hshorter cs hlength (h.next s .dollar)).front [.dollar] ⟨id, trivial⟩
          fun _ _ => .dollar htag
      · exact .inr (.inr ⟨[], _, .nil, trivial, hopen⟩)

end Hunt

theorem Tokens.at_token (h : Tokens text (ls ++ l :: ls') rest) : ∃ piece t,
    Tokens text ls (piece ++ t) ∧ Tokens t ls' rest ∧
      (Piece piece l t ∨ piece = ['$'] ∧ l = .dollar ∧ t.all isTagChar = true) := by
  generalize hall : ls ++ l :: ls' = all at h
  induction h generalizing ls with
  | nil => exact absurd hall (List.append_ne_nil_of_right_ne_nil _ (List.cons_ne_nil _ _))
  | space hc _ ih =>
    obtain ⟨piece, t, hto, hrest, hpiece⟩ := ih hall
    exact ⟨piece, t, .space hc hto, hrest, hpiece⟩
  | line hopen hinner hend _ ih =>
    obtain ⟨piece, t, hto, hrest, hpiece⟩ := ih hall
    exact ⟨piece, t, .line hopen hinner hend hto, hrest, hpiece⟩
  | block hinner _ ih =>
    obtain ⟨piece, t, hto, hrest, hpiece⟩ := ih hall
    exact ⟨piece, t, .block hinner hto, hrest, hpiece⟩
  | lexeme hfirst hmore ih =>
    cases ls with
    | nil =>
      obtain ⟨rfl, rfl⟩ := List.cons.inj hall
      exact ⟨_, _, .nil, hmore, .inl hfirst⟩
    | cons l' ls =>
      obtain ⟨rfl, htail⟩ := List.cons.inj hall
      obtain ⟨piece, t, hto, hrest, hpiece⟩ := ih htail
      exact ⟨piece, t, .lexeme hfirst hto, hrest, hpiece⟩
  | dollar htag hmore ih =>
    cases ls with
    | nil =>
      obtain ⟨rfl, rfl⟩ := List.cons.inj hall
      exact ⟨['$'], _, .nil, hmore, .inr ⟨rfl, rfl, htag⟩⟩
    | cons l' ls =>
      obtain ⟨rfl, htail⟩ := List.cons.inj hall
      obtain ⟨piece, t, hto, hrest, hpiece⟩ := ih htail
      exact ⟨piece, t, .dollar htag hto, hrest, hpiece⟩

theorem Tokens.suffix (h : Tokens text ls rest) : ∃ taken, text = taken ++ rest := by
  induction h with
  | nil => exact ⟨[], rfl⟩
  | @space c text rest ls hc _ ih =>
    obtain ⟨taken, rfl⟩ := ih
    exact ⟨c :: taken, rfl⟩
  | @line opening inner text rest ls hopen hinner hend _ ih =>
    obtain ⟨taken, rfl⟩ := ih
    exact ⟨opening ++ inner ++ taken, by simp⟩
  | @block inner text rest ls hinner _ ih =>
    obtain ⟨taken, rfl⟩ := ih
    exact ⟨'/' :: '*' :: (inner ++ taken), by simp⟩
  | @lexeme piece text rest l ls hpiece _ ih =>
    obtain ⟨taken, rfl⟩ := ih
    exact ⟨piece ++ taken, by simp⟩
  | @dollar tag rest ls htag _ ih =>
    obtain ⟨taken, rfl⟩ := ih
    exact ⟨'$' :: taken, rfl⟩

/-- A loop that takes the tokens of a hunt one after the other, where they are as it expects them. -/
structure Hunt.Walks (h : Hunt σ) (body : σ → Reading (σ ⊕ α)) (Expected : Lexeme → Prop) :
    Prop where
  space {c : Char} (hc : isSpace c = true) (text : Text) (s : σ) :
    (loop body s).read (c :: text) = (loop body s).read text
  line {opening inner text : Text} (hopen : opening = ['#'] ∨ opening = ['-', '-'])
    (hinner : '\n' ∉ inner) (hend : text.head?.all (· == '\n') = true) (s : σ) :
    (loop body s).read (opening ++ inner ++ text) = (loop body s).read text
  block {inner : Text} (hinner : CommentRun inner) (text : Text) (s : σ) :
    (loop body s).read ('/' :: '*' :: (inner ++ text)) = (loop body s).read text
  piece {piece text : Text} {l : Lexeme} {s : σ} (hpiece : Piece piece l text) (hl : Expected l)
    (hgo : ¬ h.Stops s l) : (loop body s).read (piece ++ text) = (loop body (h.next s l)).read text

theorem Hunt.Walks.read {h : Hunt σ} {body : σ → Reading (σ ⊕ α)} {Expected : Lexeme → Prop}
    (hwalks : h.Walks body Expected) (hdollar : ¬ Expected .dollar) {s : σ}
    (htokens : Tokens text ls rest) (hpass : h.Passes s ls) (hls : ∀ l ∈ ls, Expected l) :
    (loop body s).read text = (loop body (h.behind s ls)).read rest := by
  induction htokens generalizing s with
  | nil => rfl
  | space hc _ ih =>
    rw [hwalks.space hc]
    exact ih hpass hls
  | line hopen hinner hend _ ih =>
    rw [hwalks.line hopen hinner hend]
    exact ih hpass hls
  | block hinner _ ih =>
    rw [hwalks.block hinner]
    exact ih hpass hls
  | lexeme hpiece _ ih =>
    rw [hwalks.piece hpiece (hls _ List.mem_cons_self) hpass.1]
    exact ih hpass.2 fun l hl => hls l (List.mem_cons_of_mem _ hl)
  | dollar => exact absurd (hls _ List.mem_cons_self) hdollar

theorem quotedLength_unclosed {quote : Char} (hquote : quote ≠ '\\') (h : Unclosed quote text) :
    quotedLength quote text = none := by
  induction h with
  | nil => rfl
  | doubled _ ih => simp [quotedLength, hquote, ih]
  | escape hq =>
    subst hq
    rfl
  | escaped hq _ ih =>
    subst hq
    simp [quotedLength, ih]
  | @other c t hc hescape h ih =>
    cases t with
    | nil => simp [quotedLength, hc]
    | cons d ds => simp [quotedLength, hc, hescape, ih]

theorem blockLength_open (h : ¬ ['*', '/'] <:+: text) : blockLength text = none := by
  induction text using blockLength.induct with
  | case1 => rfl
  | case2 cs => exact absurd ⟨[], cs, rfl⟩ h
  | case3 c cs hclose ih =>
    rw [List.infix_cons_iff, not_or] at h
    rw [blockLength, ih h.2]
    · rfl
    · exact hclose

theorem dollarLength_open [Dangling] {tag : Text} (htag : tag.all isTagChar = true)
    (h : ¬ marker tag <:+: text) (hkept : Dangling.Kept (marker tag)) :
    dollarLength (marker tag ++ text) = .error "unterminated quoted body".toList := by
  have hbreak : breakOn (marker tag) text = none := by
    cases hbreak : breakOn (marker tag) text with
    | none => rfl
    | some r => exact absurd ⟨r.1, r.2, (breakOn_eq hbreak).symm⟩ h
  rw [dollarLength_marker htag, Dangling.search_of_kept hkept, hbreak]
  rfl

theorem dollarLength_last [Dangling] {tag : Text} (htag : tag.all isTagChar = true) :
    dollarLength ('$' :: tag) = .error "'$' starts no quoted body".toList := by
  have hall : tag.takeWhile isTagChar = tag := List.takeWhile_eq_self_iff.mpr (by simpa using htag)
  rw [dollarLength, List.tail_cons, hall]
  simp

/-- What a text ends inside of is a quoted run or a block comment that the scanner fails at, if the
marker of a body is read as it was. -/
theorem EndsInside.read [Dangling] (h : EndsInside text)
    (hkept : ∀ tag, marker tag <+: text → Dangling.Kept (marker tag)) :
    (∃ c cs, text = c :: cs ∧ quoteStart c = true ∧ skipQuoted.read text = none) ∨
      (∃ cs, text = '/' :: '*' :: cs) ∧ skipBlock.read text = none := by
  cases h with
  | @quoted quote t hquote hopen =>
    obtain ⟨hstart, hdollar, hback⟩ := quoteStart_of_mem hquote
    refine .inl ⟨quote, t, rfl, hstart, ?_⟩
    have hhead : some quote ≠ some '$' := fun heq => hdollar (Option.some.inj heq)
    simp only [skipQuoted, read_bind, read_peek, Option.bind_some, read_ite, List.head?_cons,
      if_neg hhead, List.tail_cons, quotedLength_unclosed hback hopen, read_fail]
  | @body tag t htag hopen =>
    have hfirst : Dangling.Kept (marker tag) := hkept tag (List.prefix_append _ _)
    exact .inl ⟨'$', _, rfl, rfl, read_skipQuoted_stray (dollarLength_open htag hopen hfirst)⟩
  | @block t hopen =>
    right
    refine ⟨⟨t, rfl⟩, ?_⟩
    simp only [skipBlock, read_bind, read_peek, Option.bind_some, List.drop_succ_cons,
      List.drop_zero, blockLength_open hopen, read_fail]

def KeepsMarkers [Dangling] (text : Text) : Prop :=
  ∀ tag, marker tag <:+: text → Dangling.Kept (marker tag)

theorem KeepsMarkers.suffix [Dangling] (h : KeepsMarkers text) (hrest : rest <:+ text) :
    KeepsMarkers rest := fun tag htag => h tag (htag.trans hrest.isInfix)

theorem Tokens.sound [Dangling] (h : Tokens text ls rest) (hkeeps : KeepsMarkers text) :
    ∀ l ∈ ls, l ≠ .dollar → l.Sound := by
  induction h with
  | nil => exact fun l hl => absurd hl List.not_mem_nil
  | space hc _ ih => exact ih (hkeeps.suffix (List.suffix_cons _ _))
  | line hopen hinner hend _ ih => exact ih (hkeeps.suffix (List.suffix_append _ _))
  | @block inner text rest ls hinner _ ih =>
    exact ih (hkeeps.suffix (List.suffix_append ('/' :: '*' :: inner) _))
  | lexeme hpiece _ ih =>
    refine List.forall_mem_cons.mpr ⟨fun hne => ?_, ih (hkeeps.suffix (List.suffix_append _ _))⟩
    cases hpiece with
    | @body tag inner =>
      refine hkeeps tag (List.IsPrefix.isInfix ?_)
      rw [List.append_assoc, List.append_assoc]
      exact List.prefix_append _ _
    | dollar => exact absurd rfl hne
    | _ => trivial
  | @dollar tag rest ls htag _ ih =>
    exact List.forall_mem_cons.mpr ⟨fun hne => absurd rfl hne,
      ih (hkeeps.suffix (List.suffix_cons _ _))⟩

end Uniorm.Ddl
