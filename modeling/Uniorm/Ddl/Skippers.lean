import Uniorm.Ddl.Tokens

/-! # The skips and the tokens

`statement_end` reads whole words. `skip_item` and `skip_balanced` go over a
word character by character and take a `$` in it for the start of a quoted
body. A text without such a `$` is gone over token by token by all three, where
no `$` opens a body: the marker of one is looked for through a view of what is
gone.
-/
namespace Uniorm.Ddl

open Foundation Foundation.Scan Sql Builder

variable {text rest : Text} {l : Lexeme} {ls : List Lexeme} {depth : ℕ}

/-- `statement_end`: a `;` outside of parentheses and blocks. -/
def statementHunt : Hunt Depth where
  stop d c := c == ';' && decide (d = {})
  next := Depth.lexeme
  punctuation d c h := by
    rw [Bool.and_eq_true, beq_iff_eq] at h
    exact .inr (.inr h.1)

def depthBehind (depth : ℕ) : Lexeme → ℕ
  | .char c => if c = '(' then depth + 1 else if c = ')' then depth - 1 else depth
  | _ => depth

/-- `skip_item`: the `,` or `)` that ends an item, and the `;` that ends the statement around it. -/
def itemHunt : Hunt ℕ where
  stop depth c := c == ';' || (decide (depth = 0) && (c == ',' || c == ')'))
  next := depthBehind
  punctuation depth c h := by
    simp only [Bool.or_eq_true, Bool.and_eq_true, beq_iff_eq] at h
    rcases h with hsemi | ⟨-, hcomma | hclose⟩
    · exact .inr (.inr hsemi)
    · exact .inl hcomma
    · exact .inr (.inl hclose)

/-- `skip_balanced`: the `)` that matches. -/
def listHunt : Hunt ℕ where
  stop depth c := c == ')' && decide (depth = 1)
  next := depthBehind
  punctuation depth c h := by
    rw [Bool.and_eq_true, beq_iff_eq] at h
    exact .inr (.inl h.1)

/-- `statement_end` ends behind the first `;` at its depth or with the text, and fails only at a
quoted run or a comment that the text ends inside of. -/
structure FollowsStatement [Dangling] (text : Text) : Prop where
  ends (rest : Text) : statementEnd.read text = some ((), rest) ↔
    (∃ ls, statementHunt.EndsAt {} text ls (';' :: rest)) ∨
      rest = [] ∧ ∃ ls, statementHunt.Exhausts {} text ls
  fails : statementEnd.read text = none → statementHunt.EndsOpen {} text

/-- `skip_item` ends at the first `,`, `)` or `;` at its depth or with the text. -/
structure FollowsItem [Dangling] (text : Text) : Prop where
  ends (rest : Text) : skipItem.read text = some ((), rest) ↔
    (∃ ls, itemHunt.EndsAt 0 text ls rest) ∨ rest = [] ∧ ∃ ls, itemHunt.Exhausts 0 text ls
  fails : skipItem.read text = none → itemHunt.EndsOpen 0 text

/-- `skip_balanced` ends behind the `)` that matches its `(`, and fails if there is none. -/
structure FollowsList [Dangling] (text : Text) : Prop where
  ends (rest : Text) : skipBalanced.read ('(' :: text) = some ((), rest) ↔
    ∃ ls, listHunt.EndsAt 1 text ls (')' :: rest)
  fails : skipBalanced.read ('(' :: text) = none →
    listHunt.EndsOpen 1 text ∨ ∃ ls, listHunt.Exhausts 1 text ls

/-- A token that is gone over as the characters it has: no word with a `$` in it, and no `$` that
starts no quoted body. -/
def Lexeme.plain (l : Lexeme) : Bool := l != .dollar && !l.wordText.contains '$'

/-- A token that begins with no `$`. -/
def Lexeme.unmarked (l : Lexeme) : Bool := !l.lone

/-- A token that no `$` stands in, if it is no quoted run. -/
def Lexeme.bare (l : Lexeme) : Bool := l.unmarked && !l.wordText.contains '$'

/-- The tokens that a hunt goes over are all of a kind, and no `$` opens what the text ends inside
of. -/
structure Hunt.Free {σ : Type} (h : Hunt σ) (good : Lexeme → Bool) (s : σ) (text : Text) : Prop where
  ends : ∀ ls rest, h.EndsAt s text ls rest → ls.all good = true
  exhausts : ∀ ls, h.Exhausts s text ls → ls.all good = true
  opens : ∀ ls rest, Tokens text ls rest → h.Passes s ls → EndsInside rest →
    ls.all good = true ∧ rest.head? ≠ some '$'

/-- The tokens that a hunt goes over are as its loop expects them; `Open` is what it expects in front
of what the text ends inside of, and the marker of that is read as it was. -/
structure Hunt.Clear [Dangling] {σ : Type} (h : Hunt σ) (Expected Open : Lexeme → Prop) (s : σ)
    (text : Text) : Prop where
  ends : ∀ ls rest, h.EndsAt s text ls rest → ∀ l ∈ ls, Expected l
  exhausts : ∀ ls, h.Exhausts s text ls → ∀ l ∈ ls, Expected l
  opens : ∀ ls rest, Tokens text ls rest → h.Passes s ls → EndsInside rest →
    (∀ l ∈ ls, Open l) ∧ ∀ tag, marker tag <+: rest → Dangling.Kept (marker tag)

/-- What `skip_item` and `skip_balanced` go over token by token. -/
def Lexeme.Walked [Dangling] (l : Lexeme) : Prop := l.plain = true ∧ l.Sound

/-- The first `$` that is not gone over as a part of a good token begins `u`. -/
structure FirstDollar (good : Lexeme → Bool) (text : Text) (ls : List Lexeme) (u : Text) : Prop where
  head : u.head? = some '$'
  front : ∃ front l back word, ls = front ++ l :: back ∧ front.all good = true ∧
    good l = false ∧ Tokens text front (word ++ u) ∧
    word.all (fun c => identChar c && c != '$') = true

theorem Hunt.Free.clear [Dangling] {σ : Type} {h : Hunt σ} {good : Lexeme → Bool}
    {Expected Open : Lexeme → Prop} {s : σ} (hfree : h.Free good s text)
    (hexpected : ∀ l, good l = true → Expected l) (hopen : ∀ l, good l = true → Open l) :
    h.Clear Expected Open s text where
  ends ls rest hat l hl := hexpected l (List.all_eq_true.mp (hfree.ends ls rest hat) l hl)
  exhausts ls hall l hl := hexpected l (List.all_eq_true.mp (hfree.exhausts ls hall) l hl)
  opens ls rest hto hpass hinside := by
    obtain ⟨hgood, hhead⟩ := hfree.opens ls rest hto hpass hinside
    refine ⟨fun l hl => hopen l (List.all_eq_true.mp hgood l hl), fun tag htag => ?_⟩
    obtain ⟨t, rfl⟩ := htag
    exact absurd rfl hhead

theorem Lexeme.sound_of_unmarked [Dangling] (h : l.unmarked = true) : l.Sound :=
  Lexeme.sound_of_lone (by simpa [Lexeme.unmarked] using h)

theorem Lexeme.walked_of_bare [Dangling] (h : l.bare = true) : l.Walked := by
  obtain ⟨hunmarked, hword⟩ := Bool.and_eq_true_iff.mp h
  refine ⟨?_, Lexeme.sound_of_unmarked hunmarked⟩
  rw [Lexeme.plain, hword, Bool.and_true, bne_iff_ne]
  rintro rfl
  cases hunmarked

theorem dropWhile_comment {opening inner : Text} (hopen : opening = ['#'] ∨ opening = ['-', '-'])
    (hinner : '\n' ∉ inner) (hend : text.head?.all (· == '\n') = true) :
    (opening ++ inner ++ text).dropWhile (· != '\n') = text := by
  rw [List.dropWhile_append_of_pos]
  · cases text with
    | nil => rfl
    | cons c text =>
      obtain rfl : c = '\n' := by simpa using hend
      rfl
  · intro c hc
    rw [bne_iff_ne]
    rintro rfl
    rcases List.mem_append.mp hc with hmem | hmem
    · rcases hopen with rfl | rfl <;> simp at hmem
    · exact hinner hmem

theorem read_skipBlanks_comment {opening inner : Text} (hopen : opening = ['#'] ∨ opening = ['-', '-'])
    (hinner : '\n' ∉ inner) (hend : text.head?.all (· == '\n') = true) :
    skipBlanks.read (opening ++ inner ++ text) = skipBlanks.read text := by
  have hline : lineComment (opening ++ inner ++ text) = true := by
    rcases hopen with rfl | rfl <;> rfl
  have hspace : (opening ++ inner ++ text).head?.any isSpace = false := by
    rcases hopen with rfl | rfl <;> rfl
  rw [Ddl.read_skipBlanks, read_skipBlank, hspace, hline, dropWhile_comment hopen hinner hend]
  rfl

/-- What a character of a word is not, if it is no `$`. -/
theorem not_special_of_identChar {c : Char} (h : identChar c = true) (hdollar : c ≠ '$') :
    quoteStart c = false ∧ c ≠ ';' ∧ c ≠ ',' ∧ c ≠ '(' ∧ c ≠ ')' ∧
      ∀ cs, Settled (c :: cs) := by
  have hne : ∀ d, identChar d = false → c ≠ d := by
    rintro d hd rfl
    rw [hd] at h
    cases h
  refine ⟨?_, hne ';' rfl, hne ',' rfl, hne '(' rfl, hne ')' rfl, fun cs => ?_⟩
  · simp [quoteStart, hne '\'' rfl, hne '"' rfl, hne '\x60' rfl, hdollar]
  · refine settled_of_head ?_ ⟨hne '#' rfl, hne '-' rfl⟩ (hne '/' rfl) cs
    simp [isSpace, hne ' ' rfl, hne '\t' rfl, hne '\n' rfl, hne '\r' rfl, hne '\x0b' rfl,
      hne '\x0c' rfl]

theorem read_wordChars {α σ : Type} {body : σ → Reading (σ ⊕ α)}
    (hbody : ∀ c cs s, identChar c = true → c ≠ '$' →
      (loop body s).read (c :: cs) = (loop body s).read cs) {word : Text}
    (hword : word.all (fun c => identChar c && c != '$') = true) (text : Text) (s : σ) :
    (loop body s).read (word ++ text) = (loop body s).read text := by
  induction word with
  | nil => rfl
  | cons c cs ih =>
    rw [List.all_cons, Bool.and_eq_true, Bool.and_eq_true, bne_iff_ne] at hword
    rw [List.cons_append, hbody c _ s hword.1.1 hword.1.2, ih hword.2]

theorem Word.plain {w : Text} (hw : Word w) (hplain : (Lexeme.word w).plain = true) :
    w.all (fun c => identChar c && c != '$') = true := by
  have hdollar : '$' ∉ w := by simpa [Lexeme.plain, Lexeme.wordText] using hplain
  rw [List.all_eq_true]
  intro c hc
  have hident := List.all_eq_true.mp hw.all c hc
  have hne : c ≠ '$' := fun heq => hdollar (heq ▸ hc)
  simp [hident, hne]

theorem read_end_of_blanks [Dangling] {text' : Text} (h : skipBlanks.read text = skipBlanks.read text')
    (d : Depth) : (loop endStep d).read text = (loop endStep d).read text' := by
  rw [read_loop endStep_consumes, read_loop endStep_consumes, endStep, read_bind, read_bind, h]

theorem statementHunt_walks [Dangling] : statementHunt.Walks endStep Lexeme.Sound where
  space hc text := read_end_of_blanks (read_skipBlanks_space hc text)
  line hopen hinner hend := read_end_of_blanks (read_skipBlanks_comment hopen hinner hend)
  block hinner text := read_end_of_blanks (read_skipBlanks_block hinner text)
  piece {piece text l s} hpiece hl hgo := by
    have hstay : ¬ (l = .char ';' ∧ s = {}) := by
      rintro ⟨rfl, rfl⟩
      exact hgo rfl
    rw [read_loop endStep_consumes, read_endStep_of_skip hpiece.settled.read_skipBlanks,
      hpiece.read_endAt hl, if_neg hstay]
    rfl

theorem read_end_quoted [Dangling] {c : Char} {cs : Text} (hquote : quoteStart c = true)
    (hnone : skipQuoted.read (c :: cs) = none) (d : Depth) : (loop endStep d).read (c :: cs) = none := by
  refine read_loop_none ?_
  rw [read_endStep_of_skip (settled_of_quoteStart hquote cs).read_skipBlanks, read_endAt_cons,
    if_neg (ne_semicolon_of_quoteStart hquote), if_pos hquote, hnone]
  rfl

theorem EndsInside.read_end [Dangling] (h : EndsInside text)
    (hkept : ∀ tag, marker tag <+: text → Dangling.Kept (marker tag)) (d : Depth) :
    (loop endStep d).read text = none := by
  rcases h.read hkept with ⟨c, cs, rfl, hquote, hnone⟩ | ⟨⟨cs, rfl⟩, hnone⟩
  · exact read_end_quoted hquote hnone d
  · refine read_loop_none ?_
    rw [endStep, read_bind, Ddl.read_skipBlanks, read_skipBlank, hnone]
    rfl

/-- `statement_end` fails at the first token that `skip_quoted` does not go over. -/
theorem read_statementEnd_stuck [Dangling] {front back : List Lexeme}
    (h : Tokens text (front ++ l :: back) rest) (hpass : statementHunt.Passes {} (front ++ l :: back))
    (hfront : ∀ l ∈ front, l.Sound) (hl : l.isQuoted = true)
    (hstuck : ∀ {piece t}, Piece piece l t → skipQuoted.read (piece ++ t) = none) :
    statementEnd.read text = none := by
  obtain ⟨piece, t, hto, -, hpiece⟩ := h.at_token
  have hread : statementEnd.read text = (loop endStep (statementHunt.behind {} front)).read (piece ++ t) :=
    statementHunt_walks.read id hto (Hunt.passes_append.mp hpass).1 hfront
  rw [hread]
  rcases hpiece with hpiece | ⟨rfl, -, htag⟩
  · have hnone := hstuck hpiece
    obtain ⟨c, cs, rfl, hc⟩ := hpiece.quoted_cons hl
    exact read_end_quoted hc hnone _
  · exact read_end_quoted rfl (read_skipQuoted_stray (dollarLength_last htag)) _

/-- So it does at a `$` that starts no quoted body. -/
theorem read_statementEnd_dollar [Dangling] (h : Tokens text ls rest) (hpass : statementHunt.Passes {} ls)
    (hsound : ∀ l ∈ ls, l ≠ .dollar → l.Sound) (hdollar : .dollar ∈ ls) :
    statementEnd.read text = none := by
  obtain ⟨front, back, rfl, hfront⟩ := List.eq_append_cons_of_mem hdollar
  refine read_statementEnd_stuck h hpass (fun l hl => ?_) rfl Piece.read_skipQuoted_dollar
  exact hsound l (List.mem_append_left _ hl) fun heq => hfront (heq ▸ hl)

/-- Where the markers are lost, it fails at every `$`. -/
theorem read_statementEnd_lost [Dangling] (hlost : ∀ gone, Dangling.bytes gone = none)
    (h : Tokens text ls rest) (hpass : statementHunt.Passes {} ls)
    (hlone : ls.all Lexeme.unmarked = false) : statementEnd.read text = none := by
  obtain ⟨l, hfind⟩ : ∃ l, ls.find? Lexeme.lone = some l := by
    rw [← Option.isSome_iff_exists, List.find?_isSome]
    simpa [Lexeme.unmarked] using hlone
  obtain ⟨hl, front, back, rfl, hfront⟩ := List.find?_eq_some_iff_append.mp hfind
  refine read_statementEnd_stuck h hpass (fun l hl => ?_) (Lexeme.isQuoted_of_lone hl)
    fun hpiece => hpiece.read_skipQuoted_lost hlost hl
  exact Lexeme.sound_of_lone (by simpa using hfront l hl)

/-- What `statement_end` leaves is told by the tokens that it goes over. -/
theorem read_statementEnd_tokens [Dangling] (h : Tokens text ls rest) (hpass : statementHunt.Passes {} ls)
    (hsound : ∀ l ∈ ls, l.Sound) :
    statementEnd.read text = (loop endStep (statementHunt.behind {} ls)).read rest :=
  statementHunt_walks.read id h hpass hsound

theorem read_statementEnd_endsAt [Dangling] (h : statementHunt.EndsAt {} text ls rest)
    (hsound : ∀ l ∈ ls, l.Sound) : ∃ r, rest = ';' :: r ∧ statementEnd.read text = some ((), r) := by
  have hstops := h.stops
  rw [read_statementEnd_tokens h.tokens h.passes hsound]
  cases rest with
  | nil => cases hstops
  | cons c r =>
    simp only [List.head?_cons, Option.any_some, statementHunt, Bool.and_eq_true, beq_iff_eq,
      decide_eq_true_eq] at hstops
    obtain ⟨rfl, hdepth⟩ := hstops
    refine ⟨r, rfl, ?_⟩
    rw [show statementHunt.behind {} ls = ({} : Depth) from hdepth]
    exact read_loop_done rfl

theorem read_statementEnd_exhausts [Dangling] (h : statementHunt.Exhausts {} text ls)
    (hsound : ∀ l ∈ ls, l.Sound) : statementEnd.read text = some ((), []) := by
  rw [read_statementEnd_tokens h.1 h.2 hsound]
  exact read_loop_done rfl

/-- A text is read as its tokens say if every end is read as one and there is an end or none. -/
theorem follows_of_decided (out : Option (Unit × Text)) (Ends : Text → Prop) (Open : Prop)
    (hends : ∀ r, Ends r → out = some ((), r)) (hopen : Open → out = none)
    (hor : (∃ r, Ends r) ∨ Open) :
    (∀ rest, out = some ((), rest) ↔ Ends rest) ∧ (out = none → Open) := by
  rcases hor with ⟨r, hr⟩ | hor
  · refine ⟨fun rest => ⟨fun hout => ?_, hends rest⟩, fun hnone => ?_⟩
    · rw [hends r hr] at hout
      obtain rfl := congrArg Prod.snd (Option.some.inj hout)
      exact hr
    · rw [hends r hr] at hnone
      cases hnone
  · refine ⟨fun rest => ⟨fun hout => ?_, hends rest⟩, fun _ => hor⟩
    rw [hopen hor] at hout
    cases hout

theorem Hunt.EndsAt.semicolon (h : statementHunt.EndsAt {} text ls rest) : ∃ r, rest = ';' :: r := by
  have hstops := h.stops
  cases rest with
  | nil => cases hstops
  | cons c r =>
    simp only [List.head?_cons, Option.any_some, statementHunt, Bool.and_eq_true, beq_iff_eq] at hstops
    exact ⟨r, by rw [hstops.1]⟩

/-- `statement_end` follows the tokens where it goes over each `$` of them, and fails where it should
at one that starts no body. -/
theorem Hunt.Clear.followsStatement [Dangling]
    (h : statementHunt.Clear Lexeme.Sound (fun l => l ≠ .dollar → l.Sound) {} text) :
    FollowsStatement text := by
  have hopen : statementHunt.EndsOpen {} text → statementEnd.read text = none := by
    rintro ⟨ls, rest, hto, hpass, hinside⟩
    obtain ⟨hsound, hkept⟩ := h.opens ls rest hto hpass hinside
    by_cases hdollar : .dollar ∈ ls
    · exact read_statementEnd_dollar hto hpass hsound hdollar
    · rw [read_statementEnd_tokens hto hpass fun l hl => hsound l hl fun heq => hdollar (heq ▸ hl)]
      exact hinside.read_end hkept _
  have hfollows := follows_of_decided (statementEnd.read text)
    (fun rest => (∃ ls, statementHunt.EndsAt {} text ls (';' :: rest)) ∨
      rest = [] ∧ ∃ ls, statementHunt.Exhausts {} text ls)
    (statementHunt.EndsOpen {} text) ?_ hopen ?_
  · exact ⟨hfollows.1, hfollows.2⟩
  · rintro r (⟨ls, hat⟩ | ⟨rfl, ls, hall⟩)
    · obtain ⟨r', hr, hread⟩ := read_statementEnd_endsAt hat (h.ends ls _ hat)
      rw [hread, (List.cons.inj hr).2]
    · exact read_statementEnd_exhausts hall (h.exhausts ls hall)
  · rcases statementHunt.decided {} text with ⟨ls, rest, hat⟩ | ⟨ls, hall⟩ | hopen
    · obtain ⟨r, rfl⟩ := hat.semicolon
      exact .inl ⟨r, .inl ⟨ls, hat⟩⟩
    · exact .inl ⟨[], .inr ⟨rfl, ls, hall⟩⟩
    · exact .inr hopen

/-- Where it follows the tokens, it does not fail in front of an end. -/
theorem FollowsStatement.not_none [Dangling] (h : FollowsStatement text) :
    ((∃ ls rest, statementHunt.EndsAt {} text ls rest) ∨ ∃ ls, statementHunt.Exhausts {} text ls) →
      statementEnd.read text ≠ none := by
  rintro (⟨ls, rest, hat⟩ | ⟨ls, hall⟩) hnone
  · obtain ⟨r, rfl⟩ := hat.semicolon
    rw [(h.ends r).mpr (.inl ⟨ls, hat⟩)] at hnone
    cases hnone
  · rw [(h.ends []).mpr (.inr ⟨rfl, ls, hall⟩)] at hnone
    cases hnone

/-- Where the markers are still there, `statement_end` follows the tokens exactly where no `$` in
front of the end starts no body. -/
theorem followsStatement_iff [Dangling] (hkeeps : KeepsMarkers text) : FollowsStatement text ↔
    (∀ ls rest, statementHunt.EndsAt {} text ls rest → .dollar ∉ ls) ∧
      ∀ ls, statementHunt.Exhausts {} text ls → .dollar ∉ ls := by
  constructor
  · intro h
    refine ⟨fun ls rest hat hdollar => ?_, fun ls hall hdollar => ?_⟩
    · exact h.not_none (.inl ⟨ls, rest, hat⟩)
        (read_statementEnd_dollar hat.tokens hat.passes (hat.tokens.sound hkeeps) hdollar)
    · exact h.not_none (.inr ⟨ls, hall⟩)
        (read_statementEnd_dollar hall.1 hall.2 (hall.1.sound hkeeps) hdollar)
  · rintro ⟨hends, hexhausts⟩
    refine Hunt.Clear.followsStatement ⟨fun ls rest hat l hl => ?_, fun ls hall l hl => ?_,
      fun ls rest hto _ _ => ⟨hto.sound hkeeps, fun tag htag => ?_⟩⟩
    · exact hat.tokens.sound hkeeps l hl fun heq => hends ls rest hat (heq ▸ hl)
    · exact hall.1.sound hkeeps l hl fun heq => hexhausts ls hall (heq ▸ hl)
    · obtain ⟨taken, rfl⟩ := hto.suffix
      exact hkeeps.suffix (List.suffix_append _ _) tag htag.isInfix

theorem not_stops_of_quoteStart {c : Char} (h : quoteStart c = true) :
    ¬ (c = ';' ∨ (depth = 0 ∧ (c = ',' ∨ c = ')'))) := by
  rintro (rfl | ⟨-, rfl | rfl⟩) <;> cases h

theorem read_skip_identChar [Dangling] (c : Char) (cs : Text) (depth : ℕ) (hc : identChar c = true)
    (hdollar : c ≠ '$') :
    (loop skipStep depth).read (c :: cs) = (loop skipStep depth).read cs := by
  obtain ⟨hquote, hsemi, hcomma, hopen, hclose, hsettled⟩ := not_special_of_identChar hc hdollar
  have hstay : ¬ (c = ';' ∨ (depth = 0 ∧ (c = ',' ∨ c = ')'))) := by
    simp [hsemi, hcomma, hclose]
  rw [read_loop skipStep_consumes, (hsettled cs).read_skipStep, if_neg hstay, hquote,
    if_neg Bool.false_ne_true, if_neg hopen, if_neg hclose]
  rfl

theorem Piece.read_skip_quoted [Dangling] {piece : Text} (h : Piece piece l text)
    (hquoted : l.isQuoted = true) (hl : l.Sound) (depth : ℕ) :
    (loop skipStep depth).read (piece ++ text) = (loop skipStep depth).read text := by
  have hread := h.read_skipQuoted hquoted hl
  obtain ⟨c, cs, rfl, hc⟩ := h.quoted_cons hquoted
  rw [List.cons_append] at hread ⊢
  rw [read_loop skipStep_consumes, (settled_of_quoteStart hc _).read_skipStep,
    if_neg (not_stops_of_quoteStart hc), if_pos hc, hread]
  rfl

theorem itemHunt_walks [Dangling] : itemHunt.Walks skipStep Lexeme.Walked where
  space hc text := read_skip_of_blanks (read_skipBlanks_space hc text)
  line hopen hinner hend := read_skip_of_blanks (read_skipBlanks_comment hopen hinner hend)
  block hinner text := read_skip_of_blanks (read_skipBlanks_block hinner text)
  piece {piece text l s} hpiece hl hgo := by
    cases l with
    | word w =>
      obtain ⟨rfl, hw⟩ := hpiece.eq_word
      exact read_wordChars read_skip_identChar (hw.plain hl.1) text s
    | dollar => exact hl.2.elim
    | quoted => exact hpiece.read_skip_quoted rfl hl.2 s
    | body tag => exact hpiece.read_skip_quoted rfl hl.2 s
    | char c =>
      cases hpiece with
      | char h =>
        have hstay : ¬ (c = ';' ∨ (s = 0 ∧ (c = ',' ∨ c = ')'))) := by
          intro hstop
          apply hgo
          simpa [Hunt.Stops, itemHunt] using hstop
        have hsettled : Settled (c :: text) := ⟨h.space, h.line, h.block⟩
        rw [List.singleton_append, read_loop skipStep_consumes, hsettled.read_skipStep, if_neg hstay,
          h.quote, if_neg Bool.false_ne_true]
        rfl

theorem read_balanced_identChar [Dangling] (c : Char) (cs : Text) (depth : ℕ) (hc : identChar c = true)
    (hdollar : c ≠ '$') :
    (loop balancedStep depth).read (c :: cs) = (loop balancedStep depth).read cs := by
  obtain ⟨hquote, -, -, hopen, hclose, hsettled⟩ := not_special_of_identChar hc hdollar
  rw [read_loop balancedStep_consumes, read_balancedStep, hquote, if_neg Bool.false_ne_true,
    if_neg hopen, if_neg hclose, (hsettled cs).line, if_neg Bool.false_ne_true, (hsettled cs).block,
    if_neg Bool.false_ne_true]
  rfl

theorem Piece.read_balanced_quoted [Dangling] {piece : Text} (h : Piece piece l text)
    (hquoted : l.isQuoted = true) (hl : l.Sound) (depth : ℕ) :
    (loop balancedStep depth).read (piece ++ text) = (loop balancedStep depth).read text := by
  have hread := h.read_skipQuoted hquoted hl
  obtain ⟨c, cs, rfl, hc⟩ := h.quoted_cons hquoted
  rw [List.cons_append] at hread ⊢
  rw [read_loop balancedStep_consumes, read_balancedStep, if_pos hc, hread]
  rfl

theorem listHunt_walks [Dangling] : listHunt.Walks balancedStep Lexeme.Walked where
  space hc text s := by
    obtain ⟨hquote, hopen, hclose, hline, hblock⟩ := not_special_of_isSpace hc
    rw [read_loop balancedStep_consumes, read_balancedStep, hquote, if_neg Bool.false_ne_true,
      if_neg hopen, if_neg hclose, hline, if_neg Bool.false_ne_true, hblock,
      if_neg Bool.false_ne_true]
    rfl
  line {opening inner text} hopen hinner hend s := by
    have hline : lineComment (opening ++ inner ++ text) = true := by
      rcases hopen with rfl | rfl <;> rfl
    rw [read_loop balancedStep_consumes, read_balancedStep_line hline,
      dropWhile_comment hopen hinner hend]
    rfl
  block {inner} hinner text s := by
    have hskip : skipBlock.read ('/' :: '*' :: (inner ++ text)) = some ((), text) := by
      simp [skipBlock, blockLength_run hinner]
    rw [read_loop balancedStep_consumes, read_balancedStep, if_neg (by decide), if_neg (by decide),
      if_neg (by decide), if_neg (by simp [lineComment_cons]), if_pos (by simp [blockComment_cons]),
      hskip]
    rfl
  piece {piece text l s} hpiece hl hgo := by
    cases l with
    | word w =>
      obtain ⟨rfl, hw⟩ := hpiece.eq_word
      exact read_wordChars read_balanced_identChar (hw.plain hl.1) text s
    | dollar => exact hl.2.elim
    | quoted => exact hpiece.read_balanced_quoted rfl hl.2 s
    | body tag => exact hpiece.read_balanced_quoted rfl hl.2 s
    | char c =>
      cases hpiece with
      | char h =>
        rw [List.singleton_append, read_loop balancedStep_consumes, read_balancedStep, h.quote,
          if_neg Bool.false_ne_true]
        by_cases hopen : c = '('
        · subst hopen
          rw [if_pos rfl]
          rfl
        rw [if_neg hopen]
        by_cases hclose : c = ')'
        · subst hclose
          have hdepth : s ≠ 1 := by
            rintro rfl
            exact hgo rfl
          rw [if_pos rfl, if_neg hdepth]
          rfl
        · have hnext : listHunt.next s (.char c) = s := by
            change (if c = '(' then s + 1 else if c = ')' then s - 1 else s) = s
            rw [if_neg hopen, if_neg hclose]
          rw [if_neg hclose, h.line, if_neg Bool.false_ne_true, h.block, if_neg Bool.false_ne_true,
            hnext]
          rfl

theorem EndsInside.read_skip [Dangling] (h : EndsInside text)
    (hkept : ∀ tag, marker tag <+: text → Dangling.Kept (marker tag)) (depth : ℕ) :
    (loop skipStep depth).read text = none := by
  refine read_loop_none ?_
  rcases h.read hkept with ⟨c, cs, rfl, hquote, hnone⟩ | ⟨⟨cs, rfl⟩, hnone⟩
  · rw [(settled_of_quoteStart hquote cs).read_skipStep, if_neg (not_stops_of_quoteStart hquote),
      if_pos hquote, hnone]
    rfl
  · rw [skipStep, read_bind, Ddl.read_skipBlanks, read_skipBlank, hnone]
    rfl

theorem EndsInside.read_balanced [Dangling] (h : EndsInside text)
    (hkept : ∀ tag, marker tag <+: text → Dangling.Kept (marker tag)) (depth : ℕ) :
    (loop balancedStep depth).read text = none := by
  refine read_loop_none ?_
  rcases h.read hkept with ⟨c, cs, rfl, hquote, hnone⟩ | ⟨⟨cs, rfl⟩, hnone⟩
  · rw [read_balancedStep, if_pos hquote, hnone]
    rfl
  · rw [read_balancedStep, if_neg (by decide), if_neg (by decide), if_neg (by decide),
      if_neg (by simp [lineComment_cons]), if_pos (by simp [blockComment_cons]), hnone]
    rfl

theorem read_skipBalanced_cons [Dangling] (text : Text) : skipBalanced.read ('(' :: text) =
    ((loop balancedStep 1).read text).bind fun r => r.1.map fun a => (a, r.2) := by
  have hsettled : Settled ('(' :: text) := settled_of_head rfl ⟨by decide, by decide⟩ (by decide) _
  have hopen : (expect '(').read ('(' :: text) = some ((), text) := hsettled.read_expect rfl
  rw [skipBalanced_eq, read_demand, read_bind, hopen, Option.bind_some]

theorem read_skipStep_dollar [Dangling] (cs : Text) (depth : ℕ) : (skipStep depth).read ('$' :: cs) =
    (skipQuoted.read ('$' :: cs)).map fun r => (.inl depth, r.2) := by
  rw [(settled_of_quoteStart rfl cs).read_skipStep, if_neg (not_stops_of_quoteStart rfl),
    if_pos (show quoteStart '$' = true from rfl)]

theorem read_balancedStep_dollar [Dangling] (cs : Text) (depth : ℕ) :
    (balancedStep depth).read ('$' :: cs) =
    (skipQuoted.read ('$' :: cs)).map fun r => (.inl depth, r.2) := by
  rw [read_balancedStep, if_pos (show quoteStart '$' = true from rfl)]

/-- The walk comes to the first `$` that is not a part of its token, and takes it for the start of a
quoted body: what is left stands behind that body. -/
theorem FirstDollar.read [Dangling] {α σ : Type} {h : Hunt σ} {body : σ → Reading (σ ⊕ α)} {u : Text}
    {good : Lexeme → Bool} (hfirst : FirstDollar good text ls u) (hwalks : h.Walks body Lexeme.Walked)
    (hgood : ∀ l ∈ ls, good l = true → l.Walked)
    (hword : ∀ c cs s, identChar c = true → c ≠ '$' →
      (loop body s).read (c :: cs) = (loop body s).read cs)
    (hquoted : ∀ cs s, (body s).read ('$' :: cs) = (skipQuoted.read ('$' :: cs)).map
      fun r => (.inl s, r.2)) (hconsumes : ∀ s, (body s).Consumes) {s : σ}
    (hpass : h.Passes s ls) {r : α × Text} (hr : (loop body s).read text = some r) :
    ∃ n, dollarLength u = .ok n ∧ r.2.length ≤ (u.drop n).length := by
  obtain ⟨hhead, front, l, back, word, rfl, hfront, -, hto, hword'⟩ := hfirst
  have hwalked : ∀ l ∈ front, l.Walked := fun l hl =>
    hgood l (List.mem_append_left _ hl) (List.all_eq_true.mp hfront l hl)
  obtain ⟨cs, rfl⟩ : ∃ cs, u = '$' :: cs := by
    cases u with
    | nil => cases hhead
    | cons c cs => exact ⟨cs, by rw [Option.some.inj hhead]⟩
  rw [hwalks.read (fun hdollar => hdollar.2) hto (Hunt.passes_append.mp hpass).1 hwalked,
    read_wordChars hword hword', read_loop hconsumes, hquoted, read_skipQuoted_dollar rfl] at hr
  cases hlength : dollarLength ('$' :: cs) with
  | error reason =>
    rw [hlength] at hr
    cases hr
  | ok n =>
    rw [hlength] at hr
    exact ⟨n, rfl, read_length_le (x := loop body _) hr⟩

/-- Tokens that are not all good have a first `$` that makes them so. -/
theorem exists_firstDollar {good : Lexeme → Bool}
    (hgood : ∀ l, good l = false → l.lone = true ∨ '$' ∈ l.wordText) (h : Tokens text ls rest)
    (hls : ls.all good = false) : ∃ u, FirstDollar good text ls u := by
  obtain ⟨l, hl⟩ : ∃ l, ls.find? (fun l => !good l) = some l := by
    rw [← Option.isSome_iff_exists, List.find?_isSome]
    simpa using hls
  obtain ⟨hbad, front, back, rfl, hfront⟩ := List.find?_eq_some_iff_append.mp hl
  obtain ⟨piece, t, hto, -, hpiece⟩ := h.at_token
  have hall : front.all good = true := by simpa using hfront
  have hnot : good l = false := by simpa using hbad
  have hbegins : ∀ u : Text, Tokens text front u → u.head? = some '$' →
      FirstDollar good text (front ++ l :: back) u := fun u hu hhead =>
    ⟨hhead, front, l, back, [], rfl, hall, hnot, hu, rfl⟩
  rcases hpiece with hpiece | ⟨rfl, rfl, -⟩
  · cases hpiece with
    | word hw =>
      have hmem : '$' ∈ piece := (hgood _ hnot).resolve_left Bool.false_ne_true
      obtain ⟨pre, post, rfl, hpre⟩ := List.eq_append_cons_of_mem hmem
      refine ⟨'$' :: post ++ t, rfl, front, _, back, pre, rfl, hall, hnot, ?_, ?_⟩
      · rwa [List.append_assoc] at hto
      · rw [List.all_eq_true]
        intro c hc
        have hident := List.all_eq_true.mp hw.all c (List.mem_append_left _ hc)
        have hne : c ≠ '$' := fun heq => hpre (heq ▸ hc)
        simp [hident, hne]
    | dollar => exact ⟨_, hbegins _ hto rfl⟩
    | body => exact ⟨_, hbegins _ hto rfl⟩
    | quoted => exact absurd (hgood _ hnot) (by decide)
    | char => exact absurd (hgood _ hnot) (by simp [Lexeme.lone, Lexeme.wordText])
  · exact ⟨_, hbegins _ hto rfl⟩

theorem Lexeme.not_plain (h : l.plain = false) : l.lone = true ∨ '$' ∈ l.wordText := by
  rw [Lexeme.plain, Bool.and_eq_false_iff] at h
  rcases h with hdollar | hword
  · left
    rw [bne_eq_false_iff_eq] at hdollar
    rw [hdollar]
    rfl
  · exact .inr (by simpa using hword)

theorem Lexeme.not_bare (h : l.bare = false) : l.lone = true ∨ '$' ∈ l.wordText := by
  rw [Lexeme.bare, Bool.and_eq_false_iff] at h
  exact h.imp (by simp [Lexeme.unmarked]) (by simp)

/-- Where the markers are lost, nothing that begins with a `$` is a quoted body. -/
theorem dollarLength_of_lost [Dangling] (hlost : ∀ gone, Dangling.bytes gone = none) (n : ℕ) :
    dollarLength text ≠ .ok n := by
  have hnone : ∀ gone t, Dangling.search gone t = none := fun gone t => by
    rw [Dangling.search, hlost]
    rfl
  intro h
  simp only [dollarLength, hnone] at h
  split_ifs at h

section Lost
variable [Dangling] (hlost : ∀ gone, Dangling.bytes gone = none) (hto : Tokens text ls rest)
  (hls : ls.all Lexeme.bare = false)
include hlost hto hls

theorem read_skipItem_lost (hpass : itemHunt.Passes 0 ls) : skipItem.read text = none := by
  cases hread : skipItem.read text with
  | none => rfl
  | some r =>
    obtain ⟨u, hfirst⟩ := exists_firstDollar (fun _ => Lexeme.not_bare) hto hls
    obtain ⟨n, hlength, -⟩ := hfirst.read itemHunt_walks (fun _ _ => Lexeme.walked_of_bare)
      read_skip_identChar read_skipStep_dollar skipStep_consumes hpass hread
    exact absurd hlength (dollarLength_of_lost hlost n)

theorem read_skipBalanced_lost (hpass : listHunt.Passes 1 ls) :
    skipBalanced.read ('(' :: text) = none := by
  rw [read_skipBalanced_cons]
  cases hread : (loop balancedStep 1).read text with
  | none => rfl
  | some r =>
    obtain ⟨u, hfirst⟩ := exists_firstDollar (fun _ => Lexeme.not_bare) hto hls
    obtain ⟨n, hlength, -⟩ := hfirst.read listHunt_walks (fun _ _ => Lexeme.walked_of_bare)
      read_balanced_identChar read_balancedStep_dollar balancedStep_consumes hpass hread
    exact absurd hlength (dollarLength_of_lost hlost n)

end Lost

theorem Tokens.walked [Dangling] (hto : Tokens text ls rest) (hkeeps : KeepsMarkers text) :
    ∀ l ∈ ls, l.plain = true → l.Walked := by
  intro l hl hplain
  refine ⟨hplain, hto.sound hkeeps l hl ?_⟩
  rintro rfl
  cases hplain

/-- All the words that a hunt goes over are plain, and so is every `$`. -/
def Hunt.Plain {σ : Type} (h : Hunt σ) (s : σ) (text : Text) : Prop :=
  ∀ ls rest, Tokens text ls rest → h.Passes s ls → ls.all Lexeme.plain = true

theorem Hunt.Plain.walked [Dangling] {σ : Type} {h : Hunt σ} {s : σ} (hplain : h.Plain s text)
    (hkeeps : KeepsMarkers text) (hto : Tokens text ls rest) (hpass : h.Passes s ls) :
    ∀ l ∈ ls, l.Walked := fun l hl =>
  hto.walked hkeeps l hl (List.all_eq_true.mp (hplain ls rest hto hpass) l hl)

theorem Hunt.Plain.clear [Dangling] {σ : Type} {h : Hunt σ} {s : σ} (hplain : h.Plain s text)
    (hkeeps : KeepsMarkers text) : h.Clear Lexeme.Walked Lexeme.Walked s text where
  ends ls rest hat := hplain.walked hkeeps hat.tokens hat.passes
  exhausts ls hall := hplain.walked hkeeps hall.1 hall.2
  opens ls rest hto hpass _ := by
    refine ⟨hplain.walked hkeeps hto hpass, fun tag htag => ?_⟩
    obtain ⟨taken, rfl⟩ := hto.suffix
    exact hkeeps.suffix (List.suffix_append _ _) tag htag.isInfix

/-- `skip_item` follows the tokens of a text where it goes over all of them. -/
theorem Hunt.Clear.followsItem [Dangling]
    (h : itemHunt.Clear Lexeme.Walked Lexeme.Walked 0 text) : FollowsItem text := by
  have hread : ∀ {ls rest}, Tokens text ls rest → itemHunt.Passes 0 ls → (∀ l ∈ ls, l.Walked) →
      skipItem.read text = (loop skipStep (itemHunt.behind 0 ls)).read rest :=
    fun hto hpass hls => itemHunt_walks.read (fun hdollar => hdollar.2) hto hpass hls
  have hfollows := follows_of_decided (skipItem.read text)
    (fun rest => (∃ ls, itemHunt.EndsAt 0 text ls rest) ∨
      rest = [] ∧ ∃ ls, itemHunt.Exhausts 0 text ls) (itemHunt.EndsOpen 0 text) ?_ ?_ ?_
  · exact ⟨hfollows.1, hfollows.2⟩
  · rintro rest (⟨ls, hat⟩ | ⟨rfl, ls, hall⟩)
    · have hstops := hat.stops
      rw [hread hat.tokens hat.passes (h.ends ls rest hat)]
      refine read_loop_done ?_
      cases rest with
      | nil => cases hstops
      | cons c r =>
        have hstop : c = ';' ∨ (itemHunt.behind 0 ls = 0 ∧ (c = ',' ∨ c = ')')) := by
          simpa [itemHunt] using hstops
        have hsettled : Settled (c :: r) := by
          rcases hstop with rfl | ⟨-, rfl | rfl⟩ <;> exact ⟨rfl, rfl, rfl⟩
        rw [hsettled.read_skipStep, if_pos hstop]
    · rw [hread hall.1 hall.2 (h.exhausts ls hall)]
      exact read_loop_done rfl
  · rintro ⟨ls, rest, hto, hpass, hinside⟩
    obtain ⟨hls, hkept⟩ := h.opens ls rest hto hpass hinside
    rw [hread hto hpass hls]
    exact hinside.read_skip hkept _
  · rcases itemHunt.decided 0 text with ⟨ls, rest, hat⟩ | ⟨ls, hall⟩ | hopen
    · exact .inl ⟨rest, .inl ⟨ls, hat⟩⟩
    · exact .inl ⟨[], .inr ⟨rfl, ls, hall⟩⟩
    · exact .inr hopen

/-- `skip_balanced` does so too. -/
theorem Hunt.Clear.followsList [Dangling]
    (h : listHunt.Clear Lexeme.Walked Lexeme.Walked 1 text) : FollowsList text := by
  have hread : ∀ {ls rest}, Tokens text ls rest → listHunt.Passes 1 ls → (∀ l ∈ ls, l.Walked) →
      (loop balancedStep 1).read text = (loop balancedStep (listHunt.behind 1 ls)).read rest :=
    fun hto hpass hls => listHunt_walks.read (fun hdollar => hdollar.2) hto hpass hls
  have hfollows := follows_of_decided (skipBalanced.read ('(' :: text))
    (fun rest => ∃ ls, listHunt.EndsAt 1 text ls (')' :: rest))
    (listHunt.EndsOpen 1 text ∨ ∃ ls, listHunt.Exhausts 1 text ls) ?_ ?_ ?_
  · exact ⟨hfollows.1, hfollows.2⟩
  · rintro rest ⟨ls, hat⟩
    have hdepth : listHunt.behind 1 ls = 1 := by simpa [listHunt] using hat.stops
    have hclose : (loop balancedStep 1).read (')' :: rest) = some (some (), rest) :=
      read_loop_done rfl
    rw [read_skipBalanced_cons, hread hat.tokens hat.passes (h.ends _ _ hat), hdepth, hclose]
    rfl
  · rintro (⟨ls, rest, hto, hpass, hinside⟩ | ⟨ls, hall⟩)
    · obtain ⟨hls, hkept⟩ := h.opens ls rest hto hpass hinside
      rw [read_skipBalanced_cons, hread hto hpass hls, hinside.read_balanced hkept]
      rfl
    · have hend : (loop balancedStep (listHunt.behind 1 ls)).read [] = some (none, []) :=
        read_loop_done rfl
      rw [read_skipBalanced_cons, hread hall.1 hall.2 (h.exhausts ls hall), hend]
      rfl
  · rcases listHunt.decided 1 text with ⟨ls, rest, hat⟩ | ⟨ls, hall⟩ | hopen
    · have hstops := hat.stops
      cases rest with
      | nil => cases hstops
      | cons c r =>
        simp only [List.head?_cons, Option.any_some, listHunt, Bool.and_eq_true, beq_iff_eq] at hstops
        obtain ⟨rfl, -⟩ := hstops
        exact .inl ⟨r, ls, hat⟩
    · exact .inr (.inr ⟨ls, hall⟩)
    · exact .inr (.inl hopen)

/-- A text without a `$` is free of it for every hunt. -/
theorem Tokens.bare (h : Tokens text ls rest) (hdollar : '$' ∉ text) :
    ls.all Lexeme.bare = true := by
  cases hall : ls.all Lexeme.bare with
  | true => rfl
  | false =>
    obtain ⟨u, hhead, front, l, back, word, -, -, -, hto, -⟩ :=
      exists_firstDollar (fun _ => Lexeme.not_bare) h hall
    obtain ⟨taken, rfl⟩ := hto.suffix
    cases u with
    | nil => cases hhead
    | cons c cs =>
      obtain rfl : c = '$' := Option.some.inj hhead
      exact absurd (by simp) hdollar

theorem free_of_not_mem {σ : Type} {h : Hunt σ} {s : σ} (hdollar : '$' ∉ text) :
    h.Free Lexeme.bare s text where
  ends ls rest hat := hat.tokens.bare hdollar
  exhausts ls hall := hall.1.bare hdollar
  opens ls rest hto _ _ := by
    refine ⟨hto.bare hdollar, fun hhead => ?_⟩
    obtain ⟨taken, rfl⟩ := hto.suffix
    exact hdollar (List.mem_append_right _ (List.mem_of_mem_head? hhead))

/-- The body that the first `$` of some tokens is taken to open is closed in front of `rest`. -/
def ClosedBefore [Dangling] (text : Text) (ls : List Lexeme) (rest : Text) : Prop :=
  ∃ u n, FirstDollar Lexeme.plain text ls u ∧ dollarLength u = .ok n ∧
    rest.length ≤ (u.drop n).length

section Closed
variable [Dangling] (hkeeps : KeepsMarkers text)
include hkeeps

/-- Where a word with a `$` is gone over and the end is met nevertheless, that `$` opened a body
that was closed before. -/
theorem closedBefore_of_skipItem (hread : skipItem.read text = some ((), rest))
    (hto : Tokens text ls rest) (hpass : itemHunt.Passes 0 ls) (hls : ls.all Lexeme.plain = false) :
    ClosedBefore text ls rest := by
  obtain ⟨u, hfirst⟩ := exists_firstDollar (fun _ => Lexeme.not_plain) hto hls
  obtain ⟨n, hlength, hle⟩ := hfirst.read itemHunt_walks (hto.walked hkeeps) read_skip_identChar
    read_skipStep_dollar skipStep_consumes hpass hread
  exact ⟨u, n, hfirst, hlength, hle⟩

theorem closedBefore_of_skipBalanced (hread : skipBalanced.read ('(' :: text) = some ((), rest))
    (hto : Tokens text ls (')' :: rest)) (hpass : listHunt.Passes 1 ls)
    (hls : ls.all Lexeme.plain = false) : ClosedBefore text ls rest := by
  obtain ⟨u, hfirst⟩ := exists_firstDollar (fun _ => Lexeme.not_plain) hto hls
  rw [read_skipBalanced_cons] at hread
  obtain ⟨r, hr, hread⟩ := Option.bind_eq_some_iff.mp hread
  obtain ⟨a, -, hread⟩ := Option.map_eq_some_iff.mp hread
  obtain rfl := congrArg Prod.snd hread
  obtain ⟨n, hlength, hle⟩ := hfirst.read listHunt_walks (hto.walked hkeeps) read_balanced_identChar
    read_balancedStep_dollar balancedStep_consumes hpass hr
  exact ⟨u, n, hfirst, hlength, hle⟩

end Closed

/-- The tokens in front of an end are all of a kind. -/
def Hunt.Until {σ : Type} (h : Hunt σ) (good : Lexeme → Bool) (s : σ) (text : Text) : Prop :=
  (∀ ls rest, h.EndsAt s text ls rest → ls.all good = true) ∧
    ∀ ls, h.Exhausts s text ls → ls.all good = true

section Whatever
variable (text : Text)

/-- `statement_end` follows the tokens whatever is read in the place of a marker that is gone, only if
no `$` stands on its own in front of its end. -/
theorem unmarked_of_followsStatement (h : ∀ [Dangling], FollowsStatement text) :
    statementHunt.Until Lexeme.unmarked {} text := by
  have hnone := @FollowsStatement.not_none text .lost (@h .lost)
  refine ⟨fun ls rest hat => ?_, fun ls hall => ?_⟩
  · by_contra hls
    exact hnone (.inl ⟨ls, rest, hat⟩)
      (@read_statementEnd_lost text rest ls .lost (fun _ => rfl) hat.tokens hat.passes (by simpa using hls))
  · by_contra hls
    exact hnone (.inr ⟨ls, hall⟩)
      (@read_statementEnd_lost text [] ls .lost (fun _ => rfl) hall.1 hall.2 (by simpa using hls))

/-- `skip_item` does so only if none stands in a word either. -/
theorem bare_of_followsItem (h : ∀ [Dangling], FollowsItem text) :
    itemHunt.Until Lexeme.bare 0 text := by
  refine ⟨fun ls rest hat => ?_, fun ls hall => ?_⟩
  · by_contra hls
    have hread := (@FollowsItem.ends .lost text (@h .lost) rest).mpr (.inl ⟨ls, hat⟩)
    rw [@read_skipItem_lost text rest ls .lost (fun _ => rfl) hat.tokens (by simpa using hls)
      hat.passes] at hread
    cases hread
  · by_contra hls
    have hread := (@FollowsItem.ends .lost text (@h .lost) []).mpr (.inr ⟨rfl, ls, hall⟩)
    rw [@read_skipItem_lost text [] ls .lost (fun _ => rfl) hall.1 (by simpa using hls)
      hall.2] at hread
    cases hread

theorem bare_of_followsList (h : ∀ [Dangling], FollowsList text) {ls : List Lexeme} {rest : Text}
    (hat : listHunt.EndsAt 1 text ls (')' :: rest)) : ls.all Lexeme.bare = true := by
  by_contra hls
  have hread := (@FollowsList.ends .lost text (@h .lost) rest).mpr ⟨ls, hat⟩
  rw [@read_skipBalanced_lost text _ ls .lost (fun _ => rfl) hat.tokens (by simpa using hls)
    hat.passes] at hread
  cases hread

end Whatever

/-- Whatever is read in the place of a marker that is gone, `statement_end` follows the tokens of a text
if no `$` begins one of those that it goes over, and only if none does in front of its end;
`skip_item` and `skip_balanced` do so if no `$` stands in a word of them either, and only if none does
in front of their end. Where the markers are still there, `statement_end` follows the tokens exactly
where it goes over no `$` that starts no body; the other two do where no word that they go over has a
`$` in it either, and where one has, they meet the end at most behind a body that this `$` was taken to
open. -/
theorem skippers_follow_tokens (text : Text) :
    ((statementHunt.Free Lexeme.unmarked {} text → ∀ [Dangling], FollowsStatement text) ∧
      ((∀ [Dangling], FollowsStatement text) → statementHunt.Until Lexeme.unmarked {} text)) ∧
    ((itemHunt.Free Lexeme.bare 0 text → ∀ [Dangling], FollowsItem text) ∧
      ((∀ [Dangling], FollowsItem text) → itemHunt.Until Lexeme.bare 0 text)) ∧
    ((listHunt.Free Lexeme.bare 1 text → ∀ [Dangling], FollowsList text) ∧
      ((∀ [Dangling], FollowsList text) → ∀ ls rest, listHunt.EndsAt 1 text ls (')' :: rest) →
        ls.all Lexeme.bare = true)) ∧
    ∀ [Dangling], KeepsMarkers text →
      (FollowsStatement text ↔
        (∀ ls rest, statementHunt.EndsAt {} text ls rest → .dollar ∉ ls) ∧
          ∀ ls, statementHunt.Exhausts {} text ls → .dollar ∉ ls) ∧
      (itemHunt.Plain 0 text → FollowsItem text) ∧
      (FollowsItem text →
        (∀ ls rest, itemHunt.EndsAt 0 text ls rest → ls.all Lexeme.plain = false →
          ClosedBefore text ls rest) ∧
        ∀ ls, itemHunt.Exhausts 0 text ls → ls.all Lexeme.plain = false → ClosedBefore text ls []) ∧
      (listHunt.Plain 1 text → FollowsList text) ∧
      (FollowsList text → ∀ ls rest, listHunt.EndsAt 1 text ls (')' :: rest) →
        ls.all Lexeme.plain = false → ClosedBefore text ls rest) := by
  refine ⟨⟨fun hfree _ => ?_, unmarked_of_followsStatement text⟩,
    ⟨fun hfree _ => ?_, bare_of_followsItem text⟩,
    ⟨fun hfree _ => ?_, fun h ls rest hat => bare_of_followsList text h hat⟩, fun hkeeps => ?_⟩
  · have hclear : statementHunt.Clear Lexeme.Sound (fun l => l ≠ .dollar → l.Sound) {} text :=
      hfree.clear (fun _ => Lexeme.sound_of_unmarked) fun _ hl _ => Lexeme.sound_of_unmarked hl
    exact hclear.followsStatement
  · exact (hfree.clear (fun _ => Lexeme.walked_of_bare) fun _ => Lexeme.walked_of_bare).followsItem
  · exact (hfree.clear (fun _ => Lexeme.walked_of_bare) fun _ => Lexeme.walked_of_bare).followsList
  · refine ⟨followsStatement_iff hkeeps, fun hplain => (hplain.clear hkeeps).followsItem,
      fun h => ⟨?_, ?_⟩, fun hplain => (hplain.clear hkeeps).followsList, fun h ls rest hat hls => ?_⟩
    · intro ls rest hat hls
      have hread := (h.ends rest).mpr (.inl ⟨ls, hat⟩)
      exact closedBefore_of_skipItem hkeeps hread hat.tokens hat.passes hls
    · intro ls hall hls
      have hread := (h.ends []).mpr (.inr ⟨rfl, ls, hall⟩)
      exact closedBefore_of_skipItem hkeeps hread hall.1 hall.2 hls
    · have hread := (h.ends rest).mpr ⟨ls, hat⟩
      exact closedBefore_of_skipBalanced hkeeps hread hat.tokens hat.passes hls

/-- Commas and parentheses in quotes and comments. -/
theorem quotes_and_comments_followed :
    (∀ [Dangling], FollowsItem "f(x, 'a,)') /* b, */ + y, z".toList) ∧
      ∀ [Dangling], FollowsList "f(x), ')' -- )\n) z".toList :=
  ⟨(skippers_follow_tokens _).2.1.1 (free_of_not_mem (by decide)),
    (skippers_follow_tokens _).2.2.1.1 (free_of_not_mem (by decide))⟩

theorem Word.tokens {w : Text} (hw : Word w) (hends : EndsWord text) :
    Tokens (w ++ text) [.word w] text :=
  .lexeme (.word hw hends) .nil

section Small
attribute [local instance] Dangling.small

/-- A `$` in a name makes the walk fail, or go on behind the end; a marker of twenty characters makes
`statement_end` fail in front of the end. -/
theorem dollar_in_name_not_followed : ¬ FollowsItem "a$b, c".toList ∧
    ¬ FollowsItem "a$b$, c$b$".toList ∧ ¬ FollowsList "a$b), c".toList ∧
    ¬ FollowsStatement "$function_body_text$ x $function_body_text$;".toList := by
  have hname : Word "a$b".toList := ⟨rfl, rfl⟩
  have hlong : Word "a$b$".toList := ⟨rfl, rfl⟩
  refine ⟨fun h => ?_, fun h => ?_, fun h => ?_, fun h => ?_⟩
  · have hat : itemHunt.EndsAt 0 "a$b, c".toList _ ", c".toList :=
      ⟨hname.tokens rfl, ⟨id, trivial⟩, rfl⟩
    exact absurd ((h.ends _).mpr (.inl ⟨_, hat⟩)) (by decide)
  · have hat : itemHunt.EndsAt 0 "a$b$, c$b$".toList _ ", c$b$".toList :=
      ⟨hlong.tokens rfl, ⟨id, trivial⟩, rfl⟩
    exact absurd ((h.ends _).mpr (.inl ⟨_, hat⟩)) (by decide)
  · have hat : listHunt.EndsAt 1 "a$b), c".toList _ (')' :: ", c".toList) :=
      ⟨hname.tokens rfl, ⟨id, trivial⟩, rfl⟩
    exact absurd ((h.ends _).mpr ⟨_, hat⟩) (by decide)
  · have hbreak : breakOn (marker "function_body_text".toList)
        (" x ".toList ++ marker "function_body_text".toList) = some (" x ".toList, []) := by decide
    have hbody : Piece (marker "function_body_text".toList ++ " x ".toList ++
        marker "function_body_text".toList) (.body "function_body_text".toList) ";".toList :=
      .body (by decide) (first_of_breakOn hbreak)
    have hat : statementHunt.EndsAt {} "$function_body_text$ x $function_body_text$;".toList _
        ";".toList := ⟨.lexeme hbody .nil, ⟨id, trivial⟩, rfl⟩
    exact absurd ((h.ends []).mpr (.inl ⟨_, hat⟩)) (by decide)

end Small

end Uniorm.Ddl
