import Uniorm.Ddl.ByIndex

/-! # The scanner by position does what the scans do

Every function of the scanner, from any place with the number of its line,
reads no character that is not there and comes to what the scan of its name
comes to on the rest of the text.
-/
namespace Uniorm.Ddl.ByIndex

open Foundation Foundation.Walk Sql Builder

variable {front rest : Text}

theorem run_lineComment (front : Text) (c : Char) (cs : Text) :
    lineComment.run (front ++ c :: cs) (.behind front) =
      ⟨[], .ok (Ddl.lineComment (c :: cs), .behind front)⟩ := by
  rw [lineComment, run_bind, run_current, Ddl.lineComment_cons]
  change Walk.run (if c = '#' then pure true else andAhead (c == '-') 1 (· == '-')) _ _ = _
  by_cases hhash : c = '#'
  · rw [if_pos hhash, hhash]
    rfl
  · rw [if_neg hhash, beq_false_of_ne hhash, run_andAhead]
    cases cs <;> rfl

theorem run_blockComment (front : Text) (c : Char) (cs : Text) :
    blockComment.run (front ++ c :: cs) (.behind front) =
      ⟨[], .ok (Ddl.blockComment (c :: cs), .behind front)⟩ := by
  rw [blockComment, run_bind, run_current, Ddl.blockComment_cons]
  change Walk.run (andAhead (c == '/') 1 (· == '*')) _ _ = _
  rw [run_andAhead]
  cases cs <;> rfl

theorem goes_pass {c : Char} {cs : Text} (hc : c ≠ '\n') :
    pass.Goes front (c :: cs) (.ok ((), past front (c :: cs) 1)) := by
  refine .spot ?_
  have hplace : Spot.behind (front ++ [c]) =
      { Spot.behind front with offset := (Spot.behind front).offset + 1 } := by
    rw [behind_over, if_neg hc]
  rw [← hplace]
  exact .moveTo [c] cs

theorem implements_skipLine : skipLine.Implements Ddl.skipLine := by
  intro front rest
  change Goes _ _ _ ((Scan.advance _).run _)
  rw [run_advance]
  exact .whileHolds _ (fun _ _ _ hc => goes_pass (bne_iff_ne.mp hc)) front rest

def hunted (start : ℕ) (reason : Text) (front rest : Text) :
    Option ℕ → Except (Failure Text) (Unit × Cursor)
  | none => .error (.at start reason)
  | some count => .ok ((), past front rest count)

theorem hunted_map (start : ℕ) (reason front rest : Text) (count : ℕ) (found : Option ℕ) :
    hunted start reason front rest (found.map (· + count)) =
      hunted start reason (front ++ rest.take count) (rest.drop count) found := by
  cases found with
  | none => rfl
  | some n => rw [Option.map_some, hunted, hunted, past_add, Nat.add_comm]

theorem blockLength_cons (c : Char) (cs : Text) : blockLength (c :: cs) =
    if (c == '*' && cs[0]?.any (· == '/')) = true then some 2
    else (blockLength cs).map (· + 1) := by
  by_cases hstar : c = '*'
  · rw [hstar]
    cases cs with
    | nil => rfl
    | cons d ds =>
      by_cases hslash : d = '/'
      · rw [hslash]
        rfl
      · simp [blockLength, hslash]
  · simp [blockLength, hstar]

theorem goes_blockRound (start : ℕ) (front rest : Text) :
    (loop (blockRound start) ()).Goes front rest
      (hunted start "unterminated block comment".toList front rest (blockLength rest)) := by
  refine Goes.rounds (fun _ front rest => hunted start "unterminated block comment".toList
    front rest (blockLength rest)) (fun _ front rest => ?_) () front rest
  cases rest with
  | nil => exact .fail (.atEnd (.throwAt _ _)) rfl
  | cons c cs =>
    cases hcloses : c == '*' && cs[0]?.any (· == '/') with
    | true =>
      refine .stop (b := ()) (k := 2) (.atEnd (.current (.andAhead ?_))) ?_
      · rw [show (c == '*' && (c :: cs)[1]?.any (· == '/')) = true from hcloses, if_pos rfl]
        exact (Goes.advance 2).answer rfl
      · rw [blockLength_cons, hcloses, if_pos rfl]
        rfl
    | false =>
      refine .again (t := ()) (k := 1) (.atEnd (.current (.andAhead ?_)))
        (drop_cons_lt c cs Nat.one_pos) ?_
      · rw [show (c == '*' && (c :: cs)[1]?.any (· == '/')) = false from hcloses,
          if_neg Bool.false_ne_true]
        exact (Goes.advance 1).answer rfl
      · rw [blockLength_cons, hcloses, if_neg Bool.false_ne_true, hunted_map]
        rfl

theorem implements_skipBlock : skipBlock.Implements Ddl.skipBlock := by
  intro front rest
  refine .spot ?_
  have hrun : Ddl.skipBlock.run ⟨rest, 1 + front.count '\n'⟩ =
      hunted (1 + front.count '\n') "unterminated block comment".toList front rest
        ((blockLength (rest.drop 2)).map (· + 2)) := by
    change (match blockLength (rest.drop 2) with
      | none => Scan.fail "unterminated block comment".toList
      | some n => Scan.advance (n + 2) : Reading Unit).run _ = _
    cases blockLength (rest.drop 2) with
    | none => rfl
    | some n => exact run_advance front rest (n + 2)
  rw [hrun, hunted_map]
  exact (Goes.advance 2).bindOver (goes_blockRound _ _ _)

theorem implements_skipBlanks : skipBlanks.Implements Ddl.skipBlanks := by
  refine .loop (fun _ front rest => ?_) ()
  cases rest with
  | nil => exact .atEnd (.pure _)
  | cons c cs =>
    have hline := run_lineComment front c cs
    have hblock := run_blockComment front c cs
    refine .atEnd (.current (ImplementsAt.ite .rfl (fun _ => ?_) fun _ => .look hline ?_))
    · exact Implements.bind (.advance 1) (fun _ => .pure _) front (c :: cs)
    refine ImplementsAt.ite .rfl (fun _ => ?_) fun _ => .look hblock ?_
    · exact implements_skipLine.bind (fun _ => .pure _) front (c :: cs)
    refine ImplementsAt.ite .rfl (fun _ => ?_) fun _ => .pure _
    exact implements_skipBlock.bind (fun _ => .pure _) front (c :: cs)

theorem implements_exhausted : exhausted.Implements Ddl.exhausted := by
  refine implements_skipBlanks.bind fun _ front rest => ?_
  exact (Goes.pure rest.isEmpty).congr (run_atEnd front rest)

theorem quotedLength_cons (quote c : Char) (cs : Text) : quotedLength quote (c :: cs) =
    if (c == '\\' && quote == '\'') = true then (quotedLength quote (cs.drop 1)).map (· + 2)
    else if (c == quote) = true then
      if cs[0]?.any (· == quote) = true then (quotedLength quote (cs.drop 1)).map (· + 2) else some 1
    else (quotedLength quote cs).map (· + 1) := by
  cases cs with
  | nil =>
    cases hback : c == '\\' && quote == '\'' with
    | true =>
      obtain ⟨rfl, rfl⟩ : c = '\\' ∧ quote = '\'' := by simpa using hback
      rfl
    | false => rfl
  | cons d ds =>
    rw [quotedLength]
    rfl

theorem goes_quotedRound (quote : Char) (start : ℕ) (front rest : Text) :
    (loop (quotedRound quote start) ()).Goes front rest
      (hunted start "unterminated quoted text".toList front rest (quotedLength quote rest)) := by
  refine Goes.rounds (fun _ front rest => hunted start "unterminated quoted text".toList
    front rest (quotedLength quote rest)) (fun _ front rest => ?_) () front rest
  cases rest with
  | nil => exact .fail (.atEnd (.throwAt _ _)) rfl
  | cons c cs =>
    cases hback : c == '\\' && quote == '\'' with
    | true =>
      refine .again (t := ()) (k := 2) (.atEnd (.current ?_)) (drop_cons_lt c cs Nat.two_pos) ?_
      · rw [hback, if_pos rfl]
        exact (Goes.advance 2).answer rfl
      · rw [quotedLength_cons, hback, if_pos rfl, hunted_map]
        rfl
    | false =>
    cases hquote : c == quote with
    | false =>
      refine .again (t := ()) (k := 1) (.atEnd (.current ?_)) (drop_cons_lt c cs Nat.one_pos) ?_
      · rw [hback, if_neg Bool.false_ne_true, hquote, if_neg Bool.false_ne_true]
        exact (Goes.advance 1).answer rfl
      · rw [quotedLength_cons, hback, if_neg Bool.false_ne_true, hquote, if_neg Bool.false_ne_true,
          hunted_map]
        rfl
    | true =>
    cases hnext : cs[0]?.any (· == quote) with
    | true =>
      refine .again (t := ()) (k := 2) (.atEnd (.current ?_)) (drop_cons_lt c cs Nat.two_pos) ?_
      · rw [hback, if_neg Bool.false_ne_true, hquote, if_pos rfl]
        refine .holdsAhead ?_
        rw [show (c :: cs)[1]?.any (· == quote) = true from hnext, if_pos rfl]
        exact (Goes.advance 2).answer rfl
      · rw [quotedLength_cons, hback, if_neg Bool.false_ne_true, hquote, if_pos rfl, hnext, if_pos rfl,
          hunted_map]
        rfl
    | false =>
      refine .stop (b := ()) (k := 1) (.atEnd (.current ?_)) ?_
      · rw [hback, if_neg Bool.false_ne_true, hquote, if_pos rfl]
        refine .holdsAhead ?_
        rw [show (c :: cs)[1]?.any (· == quote) = false from hnext, if_neg Bool.false_ne_true]
        exact (Goes.advance 1).answer rfl
      · rw [quotedLength_cons, hback, if_neg Bool.false_ne_true, hquote, if_pos rfl, hnext,
          if_neg Bool.false_ne_true]
        rfl

theorem goes_advanceTo (stop : ℕ) (front rest : Text) :
    (advanceTo stop).Goes front rest (.ok ((), past front rest (stop - front.length))) := by
  refine Goes.rounds (fun _ front rest => .ok ((), past front rest (stop - front.length)))
    (fun _ front rest => ?_) () front rest
  cases rest with
  | nil =>
    refine .stop (b := ()) (k := 0) (.spot (.look (run_size front []) ?_)) ?_
    · rw [if_neg fun h => Nat.lt_irrefl _ h.2]
      exact .stay _
    · rw [past_nil, past_nil]
  | cons c cs =>
    by_cases hmore : front.length < stop
    · refine .again (t := ()) (k := 1) (.spot (.look (run_size front (c :: cs)) ?_))
        (drop_cons_lt c cs Nat.one_pos) ?_
      · rw [if_pos ⟨hmore, Nat.lt_add_of_pos_right (Nat.succ_pos _)⟩]
        exact (Goes.advance 1).answer rfl
      · have hcount : 1 + (stop - (front ++ [c]).length) = stop - front.length := by
          rw [List.length_append, List.length_singleton]
          omega
        change _ = Except.ok ((), past (front ++ (c :: cs).take 1) ((c :: cs).drop 1)
          (stop - (front ++ [c]).length))
        rw [past_add, hcount]
    · refine .stop (b := ()) (k := 0) (.spot (.look (run_size front (c :: cs)) ?_)) ?_
      · rw [if_neg fun h => hmore h.1]
        exact .stay _
      · rw [Nat.sub_eq_zero_of_le (Nat.le_of_not_lt hmore)]

def bodyRun (front rest : Text) : Except Text ℕ → Except (Failure Text) (Unit × Cursor)
  | .error message => .error (.at (1 + front.count '\n') message)
  | .ok count => .ok ((), past front rest count)

def bodyLength [Dangling] (text : Text) (n : ℕ) : Except Text ℕ :=
  if text[1 + n]? ≠ some '$' then .error "'$' starts no quoted body".toList
  else
    match Dangling.search (text.take (n + 2)) (text.drop (n + 2)) with
    | none => .error "unterminated quoted body".toList
    | some (body, _) => .ok ((text.take (n + 2)).length + body.length + (text.take (n + 2)).length)

theorem dollarLength_eq [Dangling] (text : Text) :
    dollarLength text = bodyLength text (text.tail.takeWhile isTagChar).length := by
  rw [bodyLength, Nat.add_comm 1, ← List.head?_drop]
  rfl

theorem goes_closeBody [Dangling] {n : ℕ} (hclosed : rest[1 + n]? = some '$') :
    (closeBody (front.length + (1 + n))).Goes front rest (bodyRun front rest (bodyLength rest n)) := by
  have hlt : 1 + n < rest.length := (List.getElem?_eq_some_iff.mp hclosed).1
  have hmarker : (rest.take (n + 2)).length = n + 2 := by
    rw [List.length_take]
    omega
  have hcount : front.length + (1 + n) - front.length + 1 = n + 2 := by omega
  have hfrom : front.length + (1 + n) + 1 = front.length + (n + 2) := by omega
  have hnot : ¬ rest[1 + n]? ≠ some '$' := fun h => h hclosed
  rw [bodyLength, if_neg hnot]
  refine .spot ?_
  rw [show front.length + (1 + n) - (Spot.behind front).offset + 1 = n + 2 from hcount, hfrom]
  refine .look (run_substr (k := 0) front (Nat.zero_le _) (n + 2)) ?_
  refine .look (run_findGone front rest _ (n + 2)) ?_
  rw [List.drop_zero]
  cases Dangling.search (rest.take (n + 2)) (rest.drop (n + 2)) with
  | none => exact .throw _
  | some r =>
    have hstop : front.length + (n + 2) + r.1.length + (rest.take (n + 2)).length - front.length =
        (rest.take (n + 2)).length + r.1.length + (rest.take (n + 2)).length := by omega
    have hgoes := goes_advanceTo (front.length + (n + 2) + r.1.length + (rest.take (n + 2)).length)
      front rest
    rw [hstop] at hgoes
    exact hgoes

theorem goes_skipBody [Dangling] (front : Text) (c : Char) (cs : Text) :
    skipBody.Goes front (c :: cs) (bodyRun front (c :: cs) (dollarLength (c :: cs))) := by
  have hseek : (seekWhile isTagChar (front.length + 1) : Moving ℕ).run (front ++ c :: cs) (.behind front) =
      ⟨[], .ok (front.length + (1 + (cs.takeWhile isTagChar).length), .behind front)⟩ :=
    run_seekWhile isTagChar (Nat.succ_le_succ (Nat.zero_le _))
  rw [dollarLength_eq]
  refine .spot (.look hseek (.look (run_holdsAt front (c :: cs) _ _) ?_))
  change Goes (if (!(c :: cs)[1 + (cs.takeWhile isTagChar).length]?.any (· == '$')) = true then _
    else closeBody (front.length + (1 + (cs.takeWhile isTagChar).length))) _ _
      (bodyRun front (c :: cs) (bodyLength (c :: cs) (cs.takeWhile isTagChar).length))
  generalize (cs.takeWhile isTagChar).length = n
  by_cases hclosed : (c :: cs)[1 + n]? = some '$'
  · have hany : ¬ (!(c :: cs)[1 + n]?.any (· == '$')) = true := by
      rw [hclosed]
      decide
    rw [if_neg hany]
    exact goes_closeBody hclosed
  · have hany : (!(c :: cs)[1 + n]?.any (· == '$')) = true := by
      cases hget : (c :: cs)[1 + n]? with
      | none => rfl
      | some d =>
        rw [hget] at hclosed
        simpa using hclosed
    rw [if_pos hany, bodyLength, if_pos hclosed]
    exact .throw _

theorem implementsAt_skipQuoted [Dangling] (front : Text) (c : Char) (cs : Text) :
    skipQuoted.ImplementsAt Ddl.skipQuoted front (c :: cs) := by
  refine .current (ImplementsAt.peek (.ite ?_ (fun _ => ?_) fun _ => .spot ?_))
  · exact ⟨fun h => congrArg some h, Option.some.inj⟩
  · have hgoes := goes_skipBody front c cs
    rw [ImplementsAt]
    cases hlength : dollarLength (c :: cs) with
    | error message =>
      rw [hlength] at hgoes
      exact hgoes
    | ok n =>
      rw [hlength] at hgoes
      rw [run_advance]
      exact hgoes
  · have hgoes := goes_quotedRound c (1 + front.count '\n') (front ++ [c]) cs
    change Goes _ _ _ (Scan.run (match quotedLength c cs with | none => _ | some n => _) _)
    cases hlength : quotedLength c cs with
    | none =>
      rw [hlength] at hgoes
      exact (Goes.advance 1).bindOver hgoes
    | some n =>
      rw [hlength] at hgoes
      change Goes _ _ _ ((Scan.advance (n + 1)).run _)
      rw [run_advance, Nat.add_comm]
      exact (Goes.advance 1).thenOver hgoes

theorem goes_takeIdent (front rest : Text) : takeIdent.Goes front rest
    (.ok (rest.takeWhile identChar, past front rest (rest.takeWhile identChar).length)) := by
  have hprefix := List.takeWhile_prefix identChar (l := rest)
  have hgoes : takeIdent.Goes front rest (.ok (rest.take (rest.takeWhile identChar).length,
      past front rest (rest.takeWhile identChar).length)) :=
    .between hprefix.length_le (.advanceWhile identChar)
  rw [← List.prefix_iff_eq_take.mp hprefix] at hgoes
  exact hgoes

theorem wordOf_cons {c : Char} {cs : Text} (h : identStart c = true) :
    wordOf (c :: cs) = (c :: cs).takeWhile identChar := if_pos h

theorem implements_here [Dangling] : here.Implements Ddl.here := by
  refine implements_skipBlanks.bind fun _ front rest => ImplementsAt.peek ?_
  cases rest with
  | nil => exact .atEnd (.pure _)
  | cons c cs =>
    rw [if_neg (List.cons_ne_nil c cs)]
    refine .atEnd (.current (ImplementsAt.ite .rfl (fun hstart => ?_) fun _ => ?_))
    · rw [ImplementsAt, wordOf_cons hstart, run_advance_pure]
      exact goes_takeIdent front (c :: cs)
    · refine ImplementsAt.ite ⟨fun h => congrArg some h, Option.some.inj⟩ (fun _ => ?_) fun _ => ?_
      · exact (implementsAt_skipQuoted front c cs).taken
      · exact Implements.bind (.advance 1) (fun _ => .pure _) front (c :: cs)

theorem implements_peekIs (ch : Char) : (peekIs ch).Implements (Ddl.peekIs ch) := by
  refine implements_skipBlanks.bind fun _ front rest => ImplementsAt.peek ?_
  have hhead : rest[0]?.any (· == ch) = (rest.head? == some ch) := by
    cases rest <;> rfl
  rw [← hhead]
  exact (Goes.pure _).congr (run_holdsAhead front rest 0 _)

theorem eat_eq (ch : Char) : Ddl.eat ch = Ddl.skipBlanks >>= fun _ => Scan.peek >>= fun text =>
    (fun there => if there = true then Scan.advance 1 >>= fun _ => pure there else pure there)
      (text.head? == some ch) := by
  rw [Ddl.eat, Ddl.peekIs, scan_bind_assoc]
  ext1
  rfl

theorem implements_eat (ch : Char) : (eat ch).Implements (Ddl.eat ch) := by
  rw [eat_eq]
  refine implements_skipBlanks.bind fun _ front rest => ImplementsAt.peek (.holdsAhead ?_)
  have hhead : rest[0]?.any (· == ch) = (rest.head? == some ch) := by
    cases rest <;> rfl
  rw [hhead]
  cases rest.head? == some ch with
  | true => exact Implements.bind (.advance 1) (fun _ => .pure _) front rest
  | false => exact .pure _

theorem implements_expected [Dangling] {α : Type} (what : Text) :
    (expected what : Moving α).Implements (Ddl.expected what) :=
  implements_here.bind fun _ => .throw _

theorem implements_expect [Dangling] (ch : Char) : (expect ch).Implements (Ddl.expect ch) :=
  (implements_eat ch).bind fun _ => .ite .rfl (implements_expected _) (.pure _)

theorem startsKeyword_eq {word text : Text} (h : word.length ≤ text.length) :
    startsKeyword word text =
      (foldLower (text.take word.length) == foldLower word && !text[word.length]?.any identChar) := by
  rw [startsKeyword, decide_eq_true h, Bool.true_and, List.head?_drop]

/-- The characters of the word are compared one by one, and all of them are there. -/
theorem run_goesOn (front : Text) {rest word : Text} {k : ℕ} (h : k + word.length ≤ rest.length) :
    (goesOn word (front.length + k)).run (front ++ rest) (.behind front) =
      ⟨[], .ok (foldLower ((rest.drop k).take word.length) == foldLower word, .behind front)⟩ := by
  induction word generalizing k with
  | nil => rfl
  | cons w word ih =>
    rw [List.length_cons] at h
    have hlt : k < rest.length := by omega
    have hchar := List.getElem?_eq_getElem hlt
    rw [goesOn, run_bind, run_charAt hchar, List.drop_eq_getElem_cons hlt]
    change Walk.run (if rest[k].toLower ≠ w.toLower then pure false else goesOn word (_ + 1)) _ _ = _
    have hnext := ih (k := k + 1) (by omega)
    have hfold : (foldLower ((rest[k] :: rest.drop (k + 1)).take (w :: word).length) ==
        foldLower (w :: word)) = (rest[k].toLower == w.toLower &&
          foldLower ((rest.drop (k + 1)).take word.length) == foldLower word) := rfl
    rw [hfold]
    by_cases hsame : rest[k].toLower = w.toLower
    · rw [if_neg (not_not.mpr hsame), Nat.add_assoc, hnext, hsame, beq_self_eq_true, Bool.true_and]
    · rw [if_pos hsame, beq_false_of_ne hsame, Bool.false_and]
      rfl

theorem implements_peekKeyword (word : Text) :
    (peekKeyword word).Implements (Ddl.peekKeyword word) := by
  refine implements_skipBlanks.bind fun _ front rest => ImplementsAt.peek ?_
  refine .spot (.look (run_size front rest) ?_)
  by_cases hshort : rest.length < word.length
  · have hnot : startsKeyword word rest = false := by
      rw [startsKeyword, decide_eq_false (Nat.not_le_of_lt hshort), Bool.false_and, Bool.false_and]
    have hless : front.length + rest.length < (Spot.behind front).offset + word.length :=
      Nat.add_lt_add_left hshort _
    rw [if_pos hless, hnot]
    exact .pure _
  · have hle : word.length ≤ rest.length := Nat.le_of_not_lt hshort
    have hmore : ¬ front.length + rest.length < (Spot.behind front).offset + word.length :=
      Nat.not_lt.mpr (Nat.add_le_add_left hle _)
    rw [if_neg hmore, startsKeyword_eq hle]
    refine .look (run_goesOn (k := 0) front (by omega)) ?_
    rw [List.drop_zero]
    cases foldLower (rest.take word.length) == foldLower word with
    | true => exact .holdsAhead (.pure _)
    | false => exact .pure _

theorem implements_eatKeyword (word : Text) :
    (eatKeyword word).Implements (Ddl.eatKeyword word) := by
  refine (implements_peekKeyword word).bind fun there => ?_
  cases there with
  | true => exact .bind (.advance _) fun _ => .pure _
  | false => exact .pure _

theorem implements_expectKeyword [Dangling] (word : Text) :
    (expectKeyword word).Implements (Ddl.expectKeyword word) :=
  (implements_eatKeyword word).bind fun _ => .ite .rfl (implements_expected _) (.pure _)

theorem implements_peekWord : peekWord.Implements Ddl.peekWord := by
  refine implements_skipBlanks.bind fun _ front rest => ImplementsAt.peek (.holdsAhead ?_)
  cases rest with
  | nil => exact .pure _
  | cons c cs =>
    change Goes (if (!identStart c) = true then _ else _) _ _ _
    cases hstart : identStart c with
    | false =>
      rw [show wordOf (c :: cs) = [] from if_neg (Bool.eq_false_iff.mp hstart)]
      exact .pure _
    | true =>
      have hprefix := List.takeWhile_prefix identChar (l := c :: cs)
      have hcount (n : ℕ) : front.length + (0 + n) - front.length = n := by omega
      rw [wordOf_cons hstart]
      refine .spot (.look (run_seekWhile (k := 0) identChar (Nat.zero_le _)) ?_)
      change Goes (substr (front.length + 0) (front.length + (0 + _) - front.length)) _ _ _
      rw [hcount]
      refine (Goes.pure _).congr ?_
      rw [run_substr front (Nat.zero_le _), List.drop_zero, ← List.prefix_iff_eq_take.mp hprefix]
      rfl

theorem implements_takeWord : takeWord.Implements Ddl.takeWord :=
  implements_peekWord.bind fun _ => .advance _

theorem quotedName_cons (quote c : Char) (cs : Text) : quotedName quote (c :: cs) =
    if (c == quote) = true then
      if cs[0]?.any (· == quote) = true then
        (quotedName quote (cs.drop 1)).map fun r => (quote :: r.1, r.2 + 2)
      else some ([], 1)
    else (quotedName quote cs).map fun r => (c :: r.1, r.2 + 1) := by
  cases cs with
  | nil => rfl
  | cons d ds =>
    rw [quotedName]
    rfl

def nameRun (start : ℕ) (out front rest : Text) :
    Option (Text × ℕ) → Except (Failure Text) (Text × Cursor)
  | none => .error (.at start "unterminated quoted name".toList)
  | some (name, count) => .ok (out ++ name, past front rest count)

theorem nameRun_map (start : ℕ) (out front rest : Text) (c : Char) (count : ℕ)
    (found : Option (Text × ℕ)) :
    nameRun start out front rest (found.map fun r => (c :: r.1, r.2 + count)) =
      nameRun start (out ++ [c]) (front ++ rest.take count) (rest.drop count) found := by
  cases found with
  | none => rfl
  | some r => rw [Option.map_some, nameRun, nameRun, past_add, Nat.add_comm, List.append_assoc]; rfl

theorem goes_nameRound (quote : Char) (start : ℕ) (out front rest : Text) :
    (loop (nameRound quote start) out).Goes front rest
      (nameRun start out front rest (quotedName quote rest)) := by
  refine Goes.rounds (fun out front rest => nameRun start out front rest
    (quotedName quote rest)) (fun out front rest => ?_) out front rest
  cases rest with
  | nil => exact .fail (.atEnd (.throwAt _ _)) rfl
  | cons c cs =>
    cases hquote : c == quote with
    | false =>
      refine .again (t := out ++ [c]) (k := 1) (.atEnd (.current ?_))
        (drop_cons_lt c cs Nat.one_pos) ?_
      · rw [hquote, if_neg Bool.false_ne_true]
        exact (Goes.advance 1).answer rfl
      · rw [quotedName_cons, hquote, if_neg Bool.false_ne_true, nameRun_map]
        rfl
    | true =>
    cases hnext : cs[0]?.any (· == quote) with
    | true =>
      refine .again (t := out ++ [quote]) (k := 2) (.atEnd (.current ?_))
        (drop_cons_lt c cs Nat.two_pos) ?_
      · rw [hquote, if_pos rfl]
        refine .holdsAhead ?_
        rw [show (c :: cs)[1]?.any (· == quote) = true from hnext, if_pos rfl]
        exact (Goes.advance 2).answer rfl
      · rw [quotedName_cons, hquote, if_pos rfl, hnext, if_pos rfl, nameRun_map]
        rfl
    | false =>
      refine .stop (b := out) (k := 1) (.atEnd (.current ?_)) ?_
      · rw [hquote, if_pos rfl]
        refine .holdsAhead ?_
        rw [show (c :: cs)[1]?.any (· == quote) = false from hnext, if_neg Bool.false_ne_true]
        exact (Goes.advance 1).answer rfl
      · rw [quotedName_cons, hquote, if_pos rfl, hnext, if_neg Bool.false_ne_true, nameRun,
          List.append_nil]

theorem implements_identifier [Dangling] : identifier.Implements Ddl.identifier := by
  refine implements_skipBlanks.bind fun _ front rest => ImplementsAt.peek ?_
  cases rest with
  | nil => exact .atEnd (.throw _)
  | cons c cs =>
    rw [if_neg (List.cons_ne_nil c cs)]
    refine .atEnd (.current (ImplementsAt.ite .rfl (fun _ => .spot ?_) fun _ => ?_))
    · have hgoes := goes_nameRound c (1 + front.count '\n') [] (front ++ [c]) cs
      change Goes _ _ _ (Scan.run (match quotedName c cs with
        | none => _
        | some (name, n) => _) _)
      cases hname : quotedName c cs with
      | none =>
        rw [hname] at hgoes
        exact (Goes.advance 1).bindOver hgoes
      | some out =>
        obtain ⟨name, n⟩ := out
        rw [hname] at hgoes
        change Goes _ _ _ ((Scan.advance (n + 1) >>= fun _ => pure name).run _)
        rw [run_advance_pure, Nat.add_comm]
        exact (Goes.advance 1).thenOver hgoes
    · cases hstart : identStart c with
      | true =>
        change ImplementsAt takeIdent (if identStart c = true then _ else _) _ _
        rw [if_pos hstart, wordOf_cons hstart, ImplementsAt, run_advance_pure]
        exact goes_takeIdent front (c :: cs)
      | false =>
        change ImplementsAt (expected "a name".toList) (if identStart c = true then _ else _) _ _
        rw [if_neg (Bool.eq_false_iff.mp hstart)]
        exact implements_expected _ front (c :: cs)

theorem implements_eatOptionalName [Dangling] : eatOptionalName.Implements Ddl.eatOptionalName := by
  refine implements_skipBlanks.bind fun _ front rest => ImplementsAt.peek (.holdsAhead ?_)
  have hhead (p : Char → Bool) : rest[0]?.any p = rest.head?.any p := by
    cases rest <;> rfl
  rw [hhead]
  refine ImplementsAt.ite .rfl (fun _ => ?_) fun _ => .holdsAhead ?_
  · exact implements_takeWord.bind (fun _ => .pure _) front rest
  · rw [hhead]
    refine ImplementsAt.ite .rfl (fun _ => ?_) fun _ => .pure _
    exact implements_identifier.bind (fun _ => .pure _) front rest

theorem implements_qualified [Dangling] : qualified.Implements Ddl.qualified := by
  refine implements_identifier.bind fun first => .loop (fun parts => ?_) _
  exact (implements_eat '.').bind fun _ =>
    .ite .rfl (implements_identifier.bind fun _ => .pure _) (.pure _)

theorem implements_atItemEnd : atItemEnd.Implements Ddl.atItemEnd := by
  refine implements_skipBlanks.bind fun _ front rest => ImplementsAt.peek ?_
  cases rest with
  | nil => exact .atEnd (.pure _)
  | cons c cs => exact .atEnd (.current (.pure _))

theorem implements_skipItem [Dangling] : skipItem.Implements Ddl.skipItem := by
  refine .loop (fun depth => implements_skipBlanks.bind fun _ front rest => ImplementsAt.peek ?_) 0
  cases rest with
  | nil => exact .atEnd (.pure _)
  | cons c cs =>
    refine .atEnd (.current (ImplementsAt.ite .rfl (fun _ => .pure _) fun _ => ?_))
    refine ImplementsAt.ite .rfl (fun _ => ?_) fun _ => ?_
    · exact (implementsAt_skipQuoted front c cs).bind fun _ _ _ _ _ => .pure _
    · exact Implements.bind (.advance 1) (fun _ => .pure _) front (c :: cs)

/-- What is the same in two loops: a quoted run, a comment or a character is stepped over. -/
theorem implementsAt_quoted [Dangling] {α : Type} (a : α) (front : Text) (c : Char) (cs : Text) :
    (skipQuoted >>= fun _ => pure a).ImplementsAt (Ddl.skipQuoted >>= fun _ => pure a) front
      (c :: cs) :=
  (implementsAt_skipQuoted front c cs).bind fun _ _ _ _ _ => .pure _

theorem implementsAt_one {α : Type} (a : α) (front rest : Text) :
    (advance 1 >>= fun _ => pure a : Moving α).ImplementsAt (Scan.advance 1 >>= fun _ => pure a)
      front rest :=
  Implements.bind (.advance 1) (fun _ => .pure _) front rest

theorem implements_balancedRound [Dangling] (depth : ℕ) :
    (balancedRound depth).Implements (balancedStep depth) := by
  intro front rest
  refine ImplementsAt.peek ?_
  cases rest with
  | nil => exact .atEnd (.pure _)
  | cons c cs =>
    have hline := run_lineComment front c cs
    have hblock := run_blockComment front c cs
    refine .atEnd (.current (ImplementsAt.ite .rfl (fun _ => implementsAt_quoted _ front c cs)
      fun _ => ?_))
    refine ImplementsAt.ite beq_iff_eq.symm (fun _ => implementsAt_one _ front _) fun _ => ?_
    refine ImplementsAt.ite beq_iff_eq.symm (fun _ => ?_) fun _ => .look hline ?_
    · exact Implements.bind (.advance 1) (fun _ => .ite .rfl (.pure _) (.pure _)) front (c :: cs)
    refine ImplementsAt.ite .rfl (fun _ => ?_) fun _ => .look hblock ?_
    · exact implements_skipLine.bind (fun _ => .pure _) front (c :: cs)
    refine ImplementsAt.ite .rfl (fun _ => ?_) fun _ => implementsAt_one _ front _
    exact implements_skipBlock.bind (fun _ => .pure _) front (c :: cs)

theorem implements_skipBalanced [Dangling] : skipBalanced.Implements Ddl.skipBalanced := by
  rw [skipBalanced_eq]
  have hlist : (expect '(' >>= fun _ => loop balancedRound 1).Implements
      (Ddl.expect '(' >>= fun _ => Scan.loop balancedStep 1) :=
    (implements_expect '(').bind fun _ => .loop implements_balancedRound 1
  have hdemand := hlist.demand "unterminated parenthesized list".toList
  simp only [bind_assoc] at hdemand
  exact hdemand

/-- In front of a word there is nothing to skip. -/
theorem read_peekWord_word {c : Char} {cs : Text} (h : identStart c = true) :
    Ddl.peekWord.read (c :: cs) = some (wordOf (c :: cs), c :: cs) := by
  rw [Ddl.peekWord, Scan.read_bind, (settled_of_identStart h cs).read_skipBlanks]
  rfl

theorem implements_endRound [Dangling] (d : Depth) : (endRound d).Implements (endStep d) := by
  refine implements_skipBlanks.bind fun _ front rest => ImplementsAt.peek ?_
  cases rest with
  | nil => exact .atEnd (.pure _)
  | cons c cs =>
    refine .atEnd (.current (ImplementsAt.ite beq_iff_eq.symm (fun _ => implementsAt_one _ front _)
      fun _ => ?_))
    refine ImplementsAt.ite .rfl (fun _ => implementsAt_quoted _ front c cs) fun _ => ?_
    refine ImplementsAt.ite .rfl (fun hstart => ?_) fun _ => implementsAt_one _ front _
    have hword := implements_peekWord front (c :: cs)
    rw [ImplementsAt, scan_run_same (read_peekWord_word hstart)] at hword
    refine hword.bind fun taken htaken _ => ?_
    obtain rfl : taken = [] := List.append_cancel_right htaken.symm
    rw [List.append_nil]
    exact Implements.bind (.advance _) (fun _ => .pure _) front (c :: cs)

theorem implements_statementEnd [Dangling] : statementEnd.Implements Ddl.statementEnd :=
  .loop implements_endRound _

theorem implements_nameList [Dangling] : nameList.Implements Ddl.nameList := by
  refine (implements_expect '(').bind fun _ => .loop (fun names => ?_) []
  refine (implements_eat ')').bind fun _ => .ite .rfl (.pure _) ?_
  refine implements_identifier.bind fun _ => (implements_eat ',').bind fun _ => .ite .rfl (.pure _) ?_
  exact (implements_expect ')').bind fun _ => .pure _

theorem implements_indexColumns [Dangling] : indexColumns.Implements Ddl.indexColumns := by
  refine (implements_expect '(').bind fun _ => .loop (fun names => ?_) []
  refine (implements_eat ')').bind fun _ => .ite .rfl (.pure _) ?_
  refine implements_identifier.bind fun _ => implements_skipItem.bind fun _ => ?_
  refine (implements_eat ',').bind fun _ => .ite .rfl (.pure _) ?_
  exact (implements_expect ')').bind fun _ => .pure _

theorem implements_skipDots [Dangling] : skipDots.Implements Ddl.skipDots :=
  .loop (fun _ => (implements_eat '.').orBack (implements_identifier.bind fun _ => .pure _) (.pure _))
    ()

theorem implements_valueHead [Dangling] : valueHead.Implements Ddl.valueHead := by
  intro front rest
  refine ImplementsAt.peek ?_
  cases rest with
  | nil => exact .atEnd (.throw _)
  | cons c cs =>
    refine .atEnd (.current (ImplementsAt.ite .rfl (fun _ => implementsAt_skipQuoted front c cs)
      fun _ => .andAhead ?_))
    have hnext : (c :: cs)[1]?.any Char.isDigit = cs.head?.any Char.isDigit := by
      cases cs <;> rfl
    rw [hnext]
    refine ImplementsAt.ite .rfl (fun _ => ?_) fun _ => ?_
    · rw [ImplementsAt, run_advance, Nat.add_comm]
      exact (Goes.advance 1).thenOver (.advanceWhile isNumberChar)
    refine ImplementsAt.ite beq_iff_eq.symm (fun _ => implements_skipBalanced front (c :: cs))
      fun _ => ?_
    refine ImplementsAt.ite .rfl (fun _ => ?_) fun _ => implements_expected _ front (c :: cs)
    exact implements_identifier.bind (fun _ => implements_skipDots) front (c :: cs)

theorem run_peek_bind {α : Type} (f : Text → Reading α) (c : Cursor) :
    (Scan.peek >>= f).run c = (f c.rest).run c := rfl

/-- One round of the loop behind a value, with the cast asked for last. -/
theorem tailStep_eq [Dangling] (c : Char) (cs : Text) {line : ℕ} : (tailStep ()).run ⟨c :: cs, line⟩ =
    (if (c == '\'' || c == '$') = true then Ddl.skipQuoted >>= fun _ => pure (.inl ())
      else if (c == '(') = true then Ddl.skipBalanced >>= fun _ => pure (.inl ())
      else if (c == ':' && cs[0]?.any (· == ':')) = true then
        Scan.advance 2 >>= fun _ => Ddl.identifier >>= fun _ => pure (.inl ())
      else pure (.inr ()) : Reading (Unit ⊕ Unit)).run ⟨c :: cs, line⟩ := by
  by_cases hcolon : c = ':'
  · subst hcolon
    cases cs with
    | nil => rfl
    | cons d ds =>
      by_cases hd : d = ':'
      · subst hd
        rfl
      · rw [show (':' == ':' && (d :: ds)[0]?.any (· == ':')) = false by simpa using hd, tailStep,
          run_peek_bind]
        split
        · rename_i heq
          exact absurd (List.cons.inj (List.cons.inj heq).2).1 hd
        · rename_i heq
          obtain ⟨rfl, -⟩ := List.cons.inj heq
          rfl
        · rename_i heq
          cases heq
  · rw [beq_false_of_ne hcolon, Bool.false_and, tailStep, run_peek_bind]
    split
    · rename_i heq
      exact absurd (List.cons.inj heq).1 hcolon
    · rename_i heq
      obtain ⟨rfl, -⟩ := List.cons.inj heq
      rfl
    · rename_i heq
      cases heq

theorem implements_valueTail [Dangling] : valueTail.Implements Ddl.valueTail := by
  refine .loop (fun _ front rest => ?_) ()
  cases rest with
  | nil => exact .atEnd (.pure _)
  | cons c cs =>
    rw [ImplementsAt]
    change Goes _ _ _ ((tailStep ()).run _)
    rw [tailStep_eq]
    refine .atEnd (.current (ImplementsAt.ite .rfl (fun _ => implementsAt_quoted _ front c cs)
      fun _ => ?_))
    refine ImplementsAt.ite beq_iff_eq.symm (fun _ => ?_) fun _ => .andAhead ?_
    · exact implements_skipBalanced.bind (fun _ => .pure _) front (c :: cs)
    refine ImplementsAt.ite .rfl (fun _ => ?_) fun _ => .pure _
    exact Implements.bind (.advance 2) (fun _ => implements_identifier.bind fun _ => .pure _) front
      (c :: cs)

theorem implements_value [Dangling] : value.Implements Ddl.value := by
  refine implements_skipBlanks.bind fun _ front rest => ?_
  have hboth : (valueHead >>= fun _ => valueTail).Implements
      (Ddl.valueHead >>= fun _ => Ddl.valueTail) :=
    implements_valueHead.bind fun _ => implements_valueTail
  have htaken := (hboth front rest).taken
  simp only [bind_assoc] at htaken
  exact htaken

end Uniorm.Ddl.ByIndex
