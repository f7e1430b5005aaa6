import Uniorm.Ddl.Script
import Uniorm.Ddl.Tokens
import Uniorm.Foundation.Blame

/-! # What the scanner's errors are blamed on

An error names the line that the scanner is on when it gives up. That is the
line behind the token it reports, since a token is consumed to be reported; for
something that is never closed it is the line it was opened on.
-/
namespace Uniorm.Ddl

open Foundation Foundation.Scan Sql Builder

variable [Dangling]

variable {text rest : Text}

/-- What the text that was taken, and the text that follows, have to do with an error. -/
inductive Blames (taken rest : Text) : Text → Prop where
  | comment (h : EndsInside rest) (hopen : blockComment rest = true) :
    Blames taken rest "unterminated block comment".toList
  | quoted (h : EndsInside rest) (hopen : rest.head?.any quoteStart = true) :
    Blames taken rest "unterminated quoted text".toList
  /-- The marker is not found behind its first place. -/
  | body {tag t : Text} (hopen : rest = marker tag ++ t) (htag : tag.all isTagChar = true)
    (h : Dangling.search (marker tag) t = none) : Blames taken rest "unterminated quoted body".toList
  | name {quote : Char} {t : Text} (hopen : rest = quote :: t) (hquote : isNameQuote quote = true)
    (h : quotedName quote t = none) : Blames taken rest "unterminated quoted name".toList
  | list (hopen : rest.head? = some '(') (h : skipBalanced.read rest = none) :
    Blames taken rest "unterminated parenthesized list".toList
  | dollar (hopen : rest.head? = some '$') : Blames taken rest "'$' starts no quoted body".toList
  | noName (hend : rest = []) :
    Blames taken rest "expected a name, found the end of the script".toList
  | noValue (hend : rest = []) :
    Blames taken rest "expected a value, found the end of the script".toList
  /-- The token was consumed, or there is none. -/
  | found (front : Text) {token : Text}
    (htoken : token <:+ taken ∨ rest = [] ∧ token = "the end of the script".toList) :
    Blames taken rest (front ++ "found '".toList ++ token ++ ['\''])
  /-- The name was read, with all its parts. -/
  | parts {name : Text} {parts : List Text} (hname : name <:+ taken)
    (hread : qualified.read (name ++ rest) = some (parts, rest)) (hlong : 3 < parts.length) :
    Blames taken rest
      ('\'' :: parts.headD [] ++ "' is not a table name: three parts at most".toList)
  /-- The list of the columns that are referenced was read. -/
  | width {list : Text} {columns : List Text} (locals : ℕ) (table : Text) (hlist : list <:+ taken)
    (hread : nameList.read (list ++ rest) = some (columns, rest)) (hwidth : columns.length ≠ locals) :
    Blames taken rest
      ("a FOREIGN KEY of ".toList ++ numeral locals ++ " columns references ".toList ++
        numeral columns.length ++ " columns in '".toList ++ table ++ ['\''])
  | array (column phrase : Text) (hopen : rest.head? = some '[') : Blames taken rest
      ("column '".toList ++ column ++ "' has type '".toList ++ phrase ++
        "[]': the v1 binding set carries no arrays".toList)
  /-- Behind AS neither IDENTITY nor a list stands. -/
  | generated (column : Text) {word behind : Text} (hword : word <:+ taken)
    (hread : (eatKeyword "as".toList).read (word ++ rest) = some (true, behind))
    (hskip : skipBlanks.read behind = some ((), rest)) (hopen : rest.head? ≠ some '(') :
    Blames taken rest ("unsupported GENERATED clause on column '".toList ++ column ++ ['\''])
  /-- LIKE was read. -/
  | like {word : Text} (hword : word <:+ taken)
    (hread : (eatKeyword "like".toList).read (word ++ rest) = some (true, rest)) : Blames taken rest
      "CREATE TABLE ... LIKE copies a table this script does not give".toList
  /-- Behind the name no ON stands. -/
  | on {named name behind : Text} (hnamed : named <:+ taken)
    (hread : identifier.read (named ++ rest) = some (name, behind))
    (hskip : skipBlanks.read behind = some ((), rest))
    (hopen : startsKeyword "on".toList rest = false) : Blames taken rest
      ("expected ON in the definition of index '".toList ++ name ++ ['\''])

theorem Blames.more {taken reason : Text} (before : Text) (h : Blames taken rest reason) :
    Blames (before ++ taken) rest reason := by
  have hmore : ∀ {word : Text}, word <:+ taken → word <:+ before ++ taken := fun hsuffix =>
    hsuffix.trans (List.suffix_append _ _)
  cases h with
  | comment h hopen => exact .comment h hopen
  | quoted h hopen => exact .quoted h hopen
  | body hopen htag h => exact .body hopen htag h
  | name hopen hquote h => exact .name hopen hquote h
  | list hopen h => exact .list hopen h
  | dollar hopen => exact .dollar hopen
  | noName hend => exact .noName hend
  | noValue hend => exact .noValue hend
  | found front htoken => exact .found front (htoken.imp_left hmore)
  | parts hname hread hlong => exact .parts (hmore hname) hread hlong
  | width locals table hlist hread hwidth => exact .width locals table (hmore hlist) hread hwidth
  | array column phrase hopen => exact .array column phrase hopen
  | generated column hword hread hskip hopen => exact .generated column (hmore hword) hread hskip hopen
  | like hword hread => exact .like (hmore hword) hread
  | on hnamed hread hskip hopen => exact .on (hmore hnamed) hread hskip hopen

def blame : Blame Text := ⟨Blames, Blames.more⟩

omit [Dangling] in
theorem endsInside_of_blockLength {t : Text} (h : blockLength t = none) :
    EndsInside ('/' :: '*' :: t) := by
  rcases commentRun_or_open t with ⟨inner, t', rfl, hinner⟩ | hopen
  · rw [blockLength_run hinner] at h
    cases h
  · exact .block hopen

omit [Dangling] in
theorem endsInside_of_quotedLength {quote : Char} {t : Text} (hquote : quote ∈ ['\'', '"', '\x60'])
    (h : quotedLength quote t = none) : EndsInside (quote :: t) := by
  have hback := (quoteStart_of_mem hquote).2.2
  rcases quotedRun_or_unclosed hback t with ⟨run, t', rfl, hrun, hnext⟩ | hopen
  · rw [quotedLength_run hback hrun hnext] at h
    cases h
  · exact .quoted hquote hopen

theorem ends_skipLine : skipLine.Ends blame := .bind .peek fun _ => .advance _

theorem endsOn_skipBlock (h : blockComment text = true) : skipBlock.EndsOn blame text := by
  refine .bind (Ends.peek text) fun a rest hpeek => ?_
  obtain ⟨rfl, rfl⟩ := Prod.mk.inj (Option.some.inj hpeek)
  obtain ⟨t, rfl⟩ := exists_blockComment h
  cases hlength : blockLength (('/' :: '*' :: t).drop 2) with
  | none => exact .fail (.comment (endsInside_of_blockLength hlength) h)
  | some n => exact Ends.advance _ _

theorem ends_skipBlank (u : Unit) : (skipBlank u).Ends blame := by
  intro text
  refine .bind (Ends.peek text) fun a rest hpeek => ?_
  obtain ⟨rfl, rfl⟩ := Prod.mk.inj (Option.some.inj hpeek)
  refine .ite (fun _ => Ends.bind (.advance 1) (fun _ => .pure _) text) fun _ => ?_
  refine .ite (fun _ => Ends.bind ends_skipLine (fun _ => .pure _) text) fun _ => ?_
  refine .ite (fun hblock => ?_) fun _ => Ends.pure _ text
  exact .bind (endsOn_skipBlock hblock) fun _ rest _ => Ends.pure _ rest

theorem ends_skipBlanks : skipBlanks.Ends blame := .loop ends_skipBlank skipBlank_consumes ()

theorem ends_exhausted : exhausted.Ends blame :=
  .bind ends_skipBlanks fun _ => .bind .peek fun _ => .pure _

theorem dollarLength_error {message : Text} (h : dollarLength ('$' :: text) = .error message) :
    Blames [] ('$' :: text) message := by
  rcases dollar_cases text with ⟨tag, t, htext, htag⟩ | ⟨tag, c, t, rfl, htag, hc, hne⟩ | htag
  · rw [htext] at h ⊢
    rw [dollarLength_marker htag] at h
    cases hsearch : Dangling.search (marker tag) t with
    | none =>
      rw [hsearch] at h
      obtain rfl := Except.error.inj h
      exact .body rfl htag hsearch
    | some r =>
      rw [hsearch] at h
      cases h
  · rw [dollarLength_stray htag hc hne] at h
    obtain rfl := Except.error.inj h
    exact .dollar rfl
  · rw [dollarLength_last htag] at h
    obtain rfl := Except.error.inj h
    exact .dollar rfl

theorem endsOn_skipQuoted {c : Char} {cs : Text} (h : quoteStart c = true) :
    skipQuoted.EndsOn blame (c :: cs) := by
  refine .bind (Ends.peek _) fun a rest hpeek => ?_
  obtain ⟨rfl, rfl⟩ := Prod.mk.inj (Option.some.inj hpeek)
  refine .ite (fun hdollar => ?_) fun hdollar => ?_
  · obtain rfl : c = '$' := Option.some.inj hdollar
    cases hlength : dollarLength ('$' :: cs) with
    | error message => exact .fail (dollarLength_error hlength)
    | ok n => exact Ends.advance _ _
  · have hquote : c ∈ ['\'', '"', '\x60'] := by
      have hne : c ≠ '$' := fun heq => hdollar (congrArg some heq)
      simpa [quoteStart, hne, or_assoc] using h
    cases hlength : (c :: cs).head?.bind fun quote => quotedLength quote (c :: cs).tail with
    | none => exact .fail (.quoted (endsInside_of_quotedLength hquote hlength) h)
    | some n => exact Ends.advance _ _

omit [Dangling] in
theorem wordOf_append_drop (text : Text) : wordOf text ++ text.drop (wordOf text).length = text := by
  refine List.prefix_iff_eq_append.mp ?_
  rw [wordOf]
  split_ifs
  · exact List.takeWhile_prefix _
  · exact List.nil_prefix

omit [Dangling] in
theorem endsWith_taken {x : Reading Unit} {found : Text} {taken : Text}
    (h : (Scan.taken x).read text = some (found, rest)) (htext : text = taken ++ rest) :
    found = taken := by
  rw [read_taken] at h
  obtain ⟨r, -, h⟩ := Option.map_eq_some_iff.mp h
  obtain ⟨rfl, rfl⟩ := Prod.mk.inj h
  rw [htext, List.length_append, Nat.add_sub_cancel, List.take_left]

theorem read_here {found taken : Text} (h : here.read text = some (found, rest))
    (htext : text = taken ++ rest) :
    found <:+ taken ∨ rest = [] ∧ found = "the end of the script".toList := by
  rw [here, read_bind] at h
  obtain ⟨⟨u, text'⟩, hskip, h⟩ := Option.bind_eq_some_iff.mp h
  obtain ⟨blanks, hblanks⟩ := read_suffix hskip
  rw [read_bind, read_peek, Option.bind_some] at h
  -- what is found and what is left make up the text behind the blanks
  have hsuffix : ∀ found rest, text' = found ++ rest → text = taken ++ rest → found <:+ taken := by
    intro found rest hfound htaken
    refine ⟨blanks, ?_⟩
    have hsame : (blanks ++ found) ++ rest = taken ++ rest := by
      rw [List.append_assoc, ← hfound, ← htaken]
      exact hblanks.symm
    exact List.append_cancel_right hsame
  by_cases hnil : text' = []
  · rw [if_pos hnil] at h
    obtain ⟨rfl, rfl⟩ := Prod.mk.inj (Option.some.inj h)
    exact .inr ⟨hnil, rfl⟩
  rw [if_neg hnil] at h
  by_cases hword : text'.head?.any identStart = true
  · rw [if_pos hword] at h
    obtain ⟨rfl, rfl⟩ := Prod.mk.inj (Option.some.inj h)
    exact .inl (hsuffix _ _ (wordOf_append_drop text').symm htext)
  rw [if_neg hword] at h
  by_cases hquote : text'.head? = some '\''
  · rw [if_pos hquote] at h
    obtain ⟨taken', htaken'⟩ := read_suffix h
    exact .inl (hsuffix _ _ (endsWith_taken h htaken' ▸ htaken') htext)
  · rw [if_neg hquote] at h
    obtain ⟨rfl, rfl⟩ := Prod.mk.inj (Option.some.inj h)
    exact .inl (hsuffix _ _ (List.take_append_drop 1 text').symm htext)

theorem ends_here : here.Ends blame := by
  refine .bind ends_skipBlanks fun _ text => .bind (Ends.peek text) fun a rest hpeek => ?_
  obtain ⟨rfl, rfl⟩ := Prod.mk.inj (Option.some.inj hpeek)
  refine .ite (fun _ => Ends.pure _ _) fun hne => ?_
  refine .ite (fun _ => Ends.bind (.advance _) (fun _ => .pure _) _) fun _ => ?_
  refine .ite (fun hquote => ?_) fun _ => Ends.bind (.advance _) (fun _ => .pure _) _
  obtain ⟨c, cs, rfl⟩ := List.exists_cons_of_ne_nil hne
  obtain rfl : c = '\'' := Option.some.inj hquote
  exact .taken (endsOn_skipQuoted rfl)

/-- An error that reports the token at the cursor. -/
theorem ends_found {α : Type} {message : Text → Text} (front : Text)
    (h : ∀ found, message found = front ++ "found '".toList ++ found ++ ['\'']) :
    (here >>= fun found => fail (message found) : Reading α).Ends blame := by
  intro text
  refine .bind_fail (ends_here text) fun found taken rest hread htext => ?_
  rw [h]
  exact .found front (read_here hread htext)

theorem ends_expected {α : Type} (what : Text) : (expected what : Reading α).Ends blame :=
  ends_found ("expected ".toList ++ what ++ [',', ' ']) fun found => by simp

theorem ends_peekIs (ch : Char) : (peekIs ch).Ends blame :=
  .bind ends_skipBlanks fun _ => .bind .peek fun _ => .pure _

theorem ends_eat (ch : Char) : (eat ch).Ends blame :=
  .bind (ends_peekIs ch) fun _ => .ite (.bind (.advance 1) fun _ => .pure _) (.pure _)

theorem ends_expect (ch : Char) : (expect ch).Ends blame :=
  .bind (ends_eat ch) fun _ => .ite (ends_expected _) (.pure _)

theorem ends_peekKeyword (word : Text) : (peekKeyword word).Ends blame :=
  .bind ends_skipBlanks fun _ => .bind .peek fun _ => .pure _

theorem ends_eatKeyword (word : Text) : (eatKeyword word).Ends blame :=
  .bind (ends_peekKeyword word) fun _ => .ite (.bind (.advance _) fun _ => .pure _) (.pure _)

theorem ends_expectKeyword (word : Text) : (expectKeyword word).Ends blame :=
  .bind (ends_eatKeyword word) fun _ => .ite (ends_expected _) (.pure _)

theorem ends_peekWord : peekWord.Ends blame :=
  .bind ends_skipBlanks fun _ => .bind .peek fun _ => .pure _

theorem ends_takeWord : takeWord.Ends blame := .bind ends_peekWord fun _ => .advance _

theorem ends_eatKeywords (words : List Text) : (eatKeywords words).Ends blame := by
  induction words with
  | nil => exact .pure _
  | cons word words ih => exact .bind (ends_eatKeyword word) fun _ => ih

theorem ends_eatOneOf (words : List Text) : (eatOneOf words).Ends blame := by
  induction words with
  | nil => exact .pure _
  | cons word words ih => exact .bind (ends_eatKeyword word) fun _ => .ite (.pure _) ih

theorem ends_identifier : identifier.Ends blame := by
  refine .bind ends_skipBlanks fun _ text => .bind (Ends.peek text) fun a rest hpeek => ?_
  obtain ⟨rfl, rfl⟩ := Prod.mk.inj (Option.some.inj hpeek)
  refine .ite (fun hnil => .fail (.noName hnil)) fun hne => ?_
  obtain ⟨c, cs, rfl⟩ := List.exists_cons_of_ne_nil hne
  refine .ite (fun hquote => ?_) fun _ => ?_
  · cases hname : (c :: cs).head?.bind fun quote => quotedName quote (c :: cs).tail with
    | none => exact .fail (.name rfl hquote hname)
    | some out => exact Ends.bind (.advance _) (fun _ => .pure _) _
  · refine .ite (fun _ => Ends.bind (.advance _) (fun _ => .pure _) _) fun _ => ?_
    exact ends_expected _ _

theorem ends_skipName : Clause.skipName.Ends blame := .bind ends_identifier fun _ => .pure _

theorem ends_eatOptionalName : eatOptionalName.Ends blame :=
  .bind ends_skipBlanks fun _ => .bind .peek fun _ =>
    .ite (.bind ends_takeWord fun _ => .pure _)
      (.ite (.bind ends_identifier fun _ => .pure _) (.pure _))

omit [Dangling] in
theorem read_peekIs {ch : Char} {there : Bool} (h : (peekIs ch).read text = some (there, rest)) :
    Settled rest ∧ there = (rest.head? == some ch) := by
  rw [peekIs, read_bind] at h
  obtain ⟨⟨u, text'⟩, hskip, h⟩ := Option.bind_eq_some_iff.mp h
  obtain ⟨rfl, rfl⟩ := Prod.mk.inj (Option.some.inj h)
  exact ⟨settled_of_skipBlanks hskip, rfl⟩

omit [Dangling] in
theorem shortens_eat (ch : Char) : (eat ch).Shortens (· = true) := by
  intro text there rest h hthere
  subst hthere
  rw [eat, read_bind] at h
  obtain ⟨⟨there, text'⟩, hpeek, h⟩ := Option.bind_eq_some_iff.mp h
  obtain ⟨-, hhead⟩ := read_peekIs hpeek
  cases there with
  | false => cases h
  | true =>
    obtain rfl := (Prod.mk.inj (Option.some.inj h)).2
    have hne : text' ≠ [] := by
      rintro rfl
      cases hhead
    exact Nat.lt_of_lt_of_le (length_lt_of_drop Nat.one_pos hne) (read_length_le hpeek)

omit [Dangling] in
theorem shortens_eatKeyword {word : Text} (hword : word ≠ []) :
    (eatKeyword word).Shortens (· = true) := by
  intro text there rest h hthere
  subst hthere
  rw [eatKeyword, read_bind] at h
  obtain ⟨⟨there, text'⟩, hpeek, h⟩ := Option.bind_eq_some_iff.mp h
  have hle : text'.length ≤ text.length := read_length_le hpeek
  rw [peekKeyword, read_bind] at hpeek
  obtain ⟨⟨u, settled⟩, -, hpeek⟩ := Option.bind_eq_some_iff.mp hpeek
  obtain ⟨hstarts, rfl⟩ := Prod.mk.inj (Option.some.inj hpeek)
  cases there with
  | false => cases h
  | true =>
    obtain rfl := (Prod.mk.inj (Option.some.inj h)).2
    have hlength : word.length ≤ settled.length := by
      rw [startsKeyword, Bool.and_eq_true, Bool.and_eq_true, decide_eq_true_eq] at hstarts
      exact hstarts.1.1
    have hpos := List.length_pos_iff.mpr hword
    have hne : settled ≠ [] := List.length_pos_iff.mp (Nat.lt_of_lt_of_le hpos hlength)
    exact Nat.lt_of_lt_of_le (length_lt_of_drop hpos hne) hle

omit [Dangling] in
theorem shortens_eatOneOf {words : List Text} (hwords : [] ∉ words) :
    (eatOneOf words).Shortens (· = true) := by
  induction words with
  | nil =>
    intro text there rest h hthere
    subst hthere
    cases h
  | cons word words ih =>
    rw [List.mem_cons, not_or] at hwords
    refine .bind (shortens_eatKeyword (Ne.symm hwords.1)) fun there hnot => ?_
    rw [if_neg hnot]
    exact ih hwords.2

theorem shortens_identifier : identifier.Shortens fun _ => True := by
  intro text name rest h _
  rw [identifier, read_bind] at h
  obtain ⟨⟨u, text'⟩, hskip, h⟩ := Option.bind_eq_some_iff.mp h
  refine Nat.lt_of_lt_of_le ?_ (read_length_le hskip)
  rw [read_bind, read_peek, Option.bind_some] at h
  by_cases hnil : text' = []
  · rw [if_pos hnil] at h
    cases h
  rw [if_neg hnil, read_ite] at h
  by_cases hquote : text'.head?.any isNameQuote = true
  · rw [if_pos hquote] at h
    cases hname : text'.head?.bind fun quote => quotedName quote text'.tail with
    | none =>
      rw [hname] at h
      cases h
    | some out =>
      rw [hname] at h
      obtain rfl := (Prod.mk.inj (Option.some.inj h)).2
      exact length_lt_of_drop (Nat.succ_pos _) hnil
  rw [if_neg hquote, read_ite] at h
  by_cases hword : text'.head?.any identStart = true
  · rw [if_pos hword] at h
    obtain rfl := (Prod.mk.inj (Option.some.inj h)).2
    refine length_lt_of_drop ?_ hnil
    obtain ⟨c, cs, rfl⟩ := List.exists_cons_of_ne_nil hnil
    rw [wordOf, if_pos hword, List.takeWhile_cons_of_pos (identChar_of_identStart hword)]
    exact Nat.succ_pos _
  · rw [if_neg hword, read_expected] at h
    cases h

theorem ends_qualified : qualified.Ends blame := by
  refine .bind ends_identifier fun first => .loop (fun parts => ?_) (fun parts => ?_) _
  · exact .bind (ends_eat '.') fun _ => .ite (.bind ends_identifier fun _ => .pure _) (.pure _)
  · refine .bind (shortens_eat '.') fun dot hdot => ?_
    rw [if_neg hdot]
    exact .done _

theorem endsOn_balancedStep (depth : ℕ) (text : Text) : (balancedStep depth).EndsOn blame text := by
  refine .bind (Ends.peek text) fun a rest hpeek => ?_
  obtain ⟨rfl, rfl⟩ := Prod.mk.inj (Option.some.inj hpeek)
  cases text with
  | nil => exact Ends.pure _ _
  | cons c cs =>
    refine .ite (fun hquote => ?_) fun _ => ?_
    · exact .bind (endsOn_skipQuoted hquote) fun _ rest _ => Ends.pure _ rest
    refine .ite (fun _ => Ends.bind (.advance 1) (fun _ => .pure _) _) fun _ => ?_
    refine .ite (fun _ => Ends.bind (.advance 1) (fun _ => .ite (.pure _) (.pure _)) _) fun _ => ?_
    refine .ite (fun _ => Ends.bind ends_skipLine (fun _ => .pure _) _) fun _ => ?_
    refine .ite (fun hblock => ?_) fun _ => Ends.bind (.advance 1) (fun _ => .pure _) _
    exact .bind (endsOn_skipBlock hblock) fun _ rest _ => Ends.pure _ rest

theorem endsOn_skipBalanced (h : text.head? = some '(') : skipBalanced.EndsOn blame text := by
  rw [skipBalanced_eq]
  refine .demand (Ends.bind (ends_expect '(') (fun _ => ?_) text) fun rest hread => .list h ?_
  · exact .loop (fun depth => endsOn_balancedStep depth) balancedStep_consumes 1
  · rw [skipBalanced_eq, read_demand, hread]
    rfl

theorem ends_atItemEnd : atItemEnd.Ends blame :=
  .bind ends_skipBlanks fun _ => .bind .peek fun _ => .pure _

theorem ends_skipStep (depth : ℕ) : (skipStep depth).Ends blame := by
  refine .bind ends_skipBlanks fun _ text => .bind (Ends.peek text) fun a rest hpeek => ?_
  obtain ⟨rfl, rfl⟩ := Prod.mk.inj (Option.some.inj hpeek)
  cases text with
  | nil => exact Ends.pure _ _
  | cons c cs =>
    refine .ite (fun _ => Ends.pure _ _) fun _ => .ite (fun hquote => ?_) fun _ => ?_
    · exact .bind (endsOn_skipQuoted hquote) fun _ rest _ => Ends.pure _ rest
    · exact Ends.bind (.advance 1) (fun _ => .pure _) _

theorem ends_skipItem : skipItem.Ends blame := .loop ends_skipStep skipStep_consumes 0

theorem ends_endStep (d : Depth) : (endStep d).Ends blame := by
  refine .bind ends_skipBlanks fun _ text => .bind (Ends.peek text) fun a rest hpeek => ?_
  obtain ⟨rfl, rfl⟩ := Prod.mk.inj (Option.some.inj hpeek)
  cases text with
  | nil => exact Ends.pure _ _
  | cons c cs =>
    refine .ite (fun _ => Ends.bind (.advance 1) (fun _ => .pure _) _) fun _ => ?_
    refine .ite (fun hquote => ?_) fun _ => ?_
    · exact .bind (endsOn_skipQuoted hquote) fun _ rest _ => Ends.pure _ rest
    refine .ite (fun _ => Ends.bind (.advance _) (fun _ => .pure _) _) fun _ => ?_
    exact Ends.bind (.advance 1) (fun _ => .pure _) _

theorem ends_statementEnd : statementEnd.Ends blame := .loop ends_endStep endStep_consumes {}

theorem ends_nameList : nameList.Ends blame := by
  refine .bind (ends_expect '(') fun _ => .loop (fun names => ?_) (fun names => ?_) _
  · exact .bind (ends_eat ')') fun _ => .ite (.pure _) <| .bind ends_identifier fun _ =>
      .bind (ends_eat ',') fun _ => .ite (.pure _) (.bind (ends_expect ')') fun _ => .pure _)
  · refine .bind (shortens_eat ')') fun closed hclosed => ?_
    rw [if_neg hclosed]
    exact .first shortens_identifier

theorem ends_indexColumns : indexColumns.Ends blame := by
  refine .bind (ends_expect '(') fun _ => .loop (fun names => ?_) (fun names => ?_) _
  · exact .bind (ends_eat ')') fun _ => .ite (.pure _) <| .bind ends_identifier fun _ =>
      .bind ends_skipItem fun _ =>
        .bind (ends_eat ',') fun _ => .ite (.pure _) (.bind (ends_expect ')') fun _ => .pure _)
  · refine .bind (shortens_eat ')') fun closed hclosed => ?_
    rw [if_neg hclosed]
    exact .first shortens_identifier

theorem ends_skipDots : skipDots.Ends blame := by
  rw [skipDots_eq]
  refine .loop (fun _ => ?_) (fun _ => ?_) ()
  · exact .bind (fun text => .ahead (ends_eat '.' text)) fun _ =>
      .ite (.bind (ends_eat '.') fun _ => .bind ends_identifier fun _ => .pure _) (.pure _)
  · refine .after fun dot => .ite (fun _ => ?_) fun _ => .done _
    exact .after fun _ => .first shortens_identifier

theorem ends_valueHead : valueHead.Ends blame := by
  intro text
  refine .bind (Ends.peek text) fun a rest hpeek => ?_
  obtain ⟨rfl, rfl⟩ := Prod.mk.inj (Option.some.inj hpeek)
  cases text with
  | nil => exact .fail (.noValue rfl)
  | cons c cs =>
    refine .ite (fun hquote => ?_) fun _ => ?_
    · refine endsOn_skipQuoted ?_
      simp only [Bool.or_eq_true, beq_iff_eq] at hquote
      rcases hquote with rfl | rfl <;> rfl
    refine .ite (fun _ => Ends.advance _ _) fun _ => .ite (fun hopen => ?_) fun _ => ?_
    · refine endsOn_skipBalanced ?_
      exact congrArg some (beq_iff_eq.mp hopen)
    refine .ite (fun _ => ?_) fun _ => ends_expected _ _
    exact Ends.bind ends_identifier (fun _ => ends_skipDots) _

theorem ends_tailStep (u : Unit) : (tailStep u).Ends blame := by
  intro text
  refine .bind (Ends.peek text) fun a rest hpeek => ?_
  obtain ⟨rfl, rfl⟩ := Prod.mk.inj (Option.some.inj hpeek)
  split
  · exact Ends.bind (.advance 2) (fun _ => .bind ends_identifier fun _ => .pure _) _
  · rename_i c cs hcolon heq
    obtain rfl : text = c :: cs := heq
    refine .ite (fun hquote => ?_) fun _ => .ite (fun hopen => ?_) fun _ => Ends.pure _ _
    · refine .bind (endsOn_skipQuoted ?_) fun _ rest _ => Ends.pure _ rest
      simp only [Bool.or_eq_true, beq_iff_eq] at hquote
      rcases hquote with rfl | rfl <;> rfl
    · refine .bind (endsOn_skipBalanced ?_) fun _ rest _ => Ends.pure _ rest
      exact congrArg some (beq_iff_eq.mp hopen)
  · exact Ends.pure _ _

theorem ends_valueTail : valueTail.Ends blame := .loop ends_tailStep tailStep_consumes ()

theorem ends_value : value.Ends blame :=
  .bind ends_skipBlanks fun _ text => .taken
    (Ends.bind ends_valueHead (fun _ => ends_valueTail) text)

theorem ends_skipValue : Clause.skipValue.Ends blame := .bind ends_value fun _ => .pure _

theorem shortens_valueHead : valueHead.Shortens fun _ => True := by
  intro text a rest h _
  cases text with
  | nil => cases h
  | cons c cs =>
    rw [read_valueHead] at h
    by_cases hquote : c = '\'' ∨ c = '$'
    · rw [if_pos hquote] at h
      exact skipQuoted_consumes (List.cons_ne_nil _ _) h
    rw [if_neg hquote] at h
    by_cases hnumber : startsNumber c cs = true
    · rw [if_pos hnumber] at h
      obtain rfl := (Prod.mk.inj (Option.some.inj h)).2
      exact Nat.lt_succ_of_le (List.drop_suffix _ _).length_le
    rw [if_neg hnumber] at h
    by_cases hopen : c = '('
    · rw [if_pos hopen] at h
      exact skipBalanced_consumes h
    rw [if_neg hopen] at h
    by_cases hword : identStart c = true
    · rw [if_pos hword] at h
      exact Shortens.first (Q := fun _ => True) shortens_identifier _ a rest h trivial
    · rw [if_neg hword] at h
      cases h

theorem shortens_value : value.Shortens fun _ => True := by
  intro text a rest h _
  rw [value, read_bind] at h
  obtain ⟨⟨u, text'⟩, hskip, h⟩ := Option.bind_eq_some_iff.mp h
  rw [read_taken] at h
  obtain ⟨r, hr, h⟩ := Option.map_eq_some_iff.mp h
  obtain rfl := (Prod.mk.inj h).2
  have hlt : r.2.length < text'.length :=
    Shortens.first (Q := fun _ => True) shortens_valueHead text' r.1 r.2 hr trivial
  exact Nat.lt_of_lt_of_le hlt (read_length_le hskip)

end Uniorm.Ddl
