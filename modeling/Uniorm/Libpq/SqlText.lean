import Uniorm.Foundation.Scanner
import Uniorm.Foundation.Text
import Uniorm.Sql.Placeholder

/-! # The rewriting of placeholders for libpq

`rewrite_placeholders` and the functions that skip a comment, a quoted run or a
dollar-quoted body. A text is a list of bytes; where the source passes an index
into the statement, the text from that index on is passed, and what is skipped
comes back with the text behind it. The error of a run that does not end is the
character that opened it.
-/
namespace Uniorm.Libpq

open Foundation Sql

/-- The text of the `backend_error` thrown. -/
def unterminated (opening : Char) : String :=
  "statement ends inside a quote or comment opened by " ++ String.singleton opening

def isWordCharacter (c : Char) : Bool :=
  c.isAlphanum || c == '_' || c == '$' || decide (0x80 ≤ c.toNat)

def isTagCharacter (c : Char) : Bool := c.isAlphanum || c == '_' || decide (0x80 ≤ c.toNat)

def skipLineComment (sql : Text) : Text × Text := sql.span (· ≠ '\n')

def skipBlockComment : ℕ → Text → Option (Text × Text)
  | depth, '/' :: '*' :: sql =>
    (skipBlockComment (depth + 1) sql).map fun r => ('/' :: '*' :: r.1, r.2)
  | depth, '*' :: '/' :: sql =>
    if depth - 1 = 0 then some (['*', '/'], sql)
    else (skipBlockComment (depth - 1) sql).map fun r => ('*' :: '/' :: r.1, r.2)
  | depth, c :: d :: sql => (skipBlockComment depth (d :: sql)).map fun r => (c :: r.1, r.2)
  | _, _ => none

def skipDoubled (quote : Char) (backslashEscapes : Bool) : Text → Option (Text × Text)
  | [] => none
  | [c] =>
    if backslashEscapes ∧ c = '\\' then none
    else if c = quote then some ([c], [])
    else none
  | c :: d :: sql =>
    if backslashEscapes ∧ c = '\\' then
      (skipDoubled quote backslashEscapes sql).map fun r => (c :: d :: r.1, r.2)
    else if c = quote then
      if d = quote then
        (skipDoubled quote backslashEscapes sql).map fun r => (c :: d :: r.1, r.2)
      else some ([c], d :: sql)
    else (skipDoubled quote backslashEscapes (d :: sql)).map fun r => (c :: r.1, r.2)

/-- The length of the delimiter that a dollar opens, zero where it opens none; `sql` is the text
behind the dollar. -/
def dollarDelimiter (sql : Text) : ℕ :=
  match sql with
  | [] => 0
  | c :: _ =>
    if c = '$' then 2
    else if ¬ isTagCharacter c ∨ c.isDigit then 0
    else if (sql.dropWhile isTagCharacter).head? = some '$' then
      (sql.takeWhile isTagCharacter).length + 2
    else 0

def skipDollarQuoted (sql : Text) (delimiter : ℕ) : Option (Text × Text) :=
  (breakOn (sql.take delimiter) (sql.drop delimiter)).map fun r =>
    (sql.take delimiter ++ r.1 ++ sql.take delimiter, r.2)

/-- `prev` is the character in front of the E. -/
def leadsEscapeString (prev : Option Char) : Bool := !prev.any isWordCharacter

def copySpan (opening : Text) (failure : Char) : Option (Text × Text) → Except Char (Piece × Text)
  | some (span, rest) => .ok (.copied (opening ++ span), rest)
  | none => .error failure

/-- One turn of the loop of `rewrite_placeholders` at a character, its predecessor and what
follows it. -/
def nextPiece (prev : Option Char) (c : Char) (sql : Text) : Except Char (Piece × Text) :=
  if c = '-' ∧ sql.head? = some '-' then
    copySpan [] '-' (some (skipLineComment (c :: sql)))
  else if c = '/' ∧ sql.head? = some '*' then
    copySpan ['/', '*'] '/' (skipBlockComment 1 sql.tail)
  else if c = '\'' ∨ c = '"' then
    copySpan [c] c (skipDoubled c false sql)
  else if (c = 'e' ∨ c = 'E') ∧ sql.head? = some '\'' ∧ leadsEscapeString prev then
    copySpan [c, '\''] '\'' (skipDoubled '\'' true sql.tail)
  else if c = '$' ∧ 0 < dollarDelimiter sql then
    copySpan [] '$' (skipDollarQuoted (c :: sql) (dollarDelimiter sql))
  else if c = '?' then
    -- a doubled mark leaves one of its characters to the server
    if sql.head? = some '?' then .ok (.pair, sql.tail) else .ok (.mark, sql)
  else .ok (.copied [c], sql)

def lastOf (p : Piece) : Option Char := (p.source '$').getLast?

theorem skipBlockComment_append {depth : ℕ} {sql : Text} {r : Text × Text}
    (h : skipBlockComment depth sql = some r) : r.1 ++ r.2 = sql := by
  fun_induction skipBlockComment depth sql generalizing r with
  | case1 depth sql ih =>
    obtain ⟨a, ha, rfl⟩ := Option.map_eq_some_iff.mp h
    simp [ih ha]
  | case2 depth sql hdepth =>
    obtain rfl := Option.some.inj h
    rfl
  | case3 depth sql hdepth ih =>
    obtain ⟨a, ha, rfl⟩ := Option.map_eq_some_iff.mp h
    simp [ih ha]
  | case4 depth c d sql _ _ ih =>
    obtain ⟨a, ha, rfl⟩ := Option.map_eq_some_iff.mp h
    simp [ih ha]
  | case5 => cases h

theorem skipDoubled_append {quote : Char} {escapes : Bool} {sql : Text} {r : Text × Text}
    (h : skipDoubled quote escapes sql = some r) : r.1 ++ r.2 = sql := by
  fun_induction skipDoubled quote escapes sql generalizing r with
  | case1 => cases h
  | case2 => cases h
  | case3 =>
    obtain rfl := Option.some.inj h
    rfl
  | case4 => cases h
  | case5 c d sql _ ih =>
    obtain ⟨a, ha, rfl⟩ := Option.map_eq_some_iff.mp h
    simp [ih ha]
  | case6 sql _ ih =>
    obtain ⟨a, ha, rfl⟩ := Option.map_eq_some_iff.mp h
    simp [ih ha]
  | case7 c d sql =>
    obtain rfl := Option.some.inj h
    rfl
  | case8 c d sql _ _ ih =>
    obtain ⟨a, ha, rfl⟩ := Option.map_eq_some_iff.mp h
    simp [ih ha]

theorem skipDollarQuoted_append {sql : Text} {delimiter : ℕ} {r : Text × Text}
    (h : skipDollarQuoted sql delimiter = some r) : r.1 ++ r.2 = sql := by
  obtain ⟨a, ha, rfl⟩ := Option.map_eq_some_iff.mp h
  have hsplit := breakOn_eq ha
  simp only [List.append_assoc] at hsplit ⊢
  rw [← hsplit, List.take_append_drop]

theorem copySpan_eq_ok {opening : Text} {failure : Char} {r : Option (Text × Text)}
    {p : Piece} {rest : Text} (h : copySpan opening failure r = .ok (p, rest)) :
    ∃ span, r = some (span, rest) ∧ p = .copied (opening ++ span) := by
  cases r with
  | none => cases h
  | some a =>
    obtain ⟨rfl, rfl⟩ := Prod.mk.inj (Except.ok.inj h)
    exact ⟨a.1, rfl, rfl⟩

/-- Every turn of the loop takes a nonempty piece off the front. -/
theorem nextPiece_source {prev : Option Char} {c : Char} {sql rest : Text} {p : Piece}
    (h : nextPiece prev c sql = .ok (p, rest)) :
    p.source '$' ≠ [] ∧ p.source '$' ++ rest = c :: sql := by
  unfold nextPiece at h
  split at h
  · rename_i hc
    obtain ⟨span, hspan, rfl⟩ := copySpan_eq_ok h
    have hall : skipLineComment (c :: sql) = (span, rest) := Option.some.inj hspan
    rw [skipLineComment, List.span_eq_takeWhile_dropWhile, Prod.mk.injEq] at hall
    rw [← hall.1, ← hall.2]
    exact ⟨by simp [Piece.source, hc.1], List.takeWhile_append_dropWhile⟩
  · split at h
    · rename_i hc
      obtain ⟨span, hspan, rfl⟩ := copySpan_eq_ok h
      have hall := skipBlockComment_append hspan
      obtain ⟨t, rfl⟩ := List.head?_eq_some_iff.mp hc.2
      simp only [Piece.source, List.cons_append, List.nil_append, hc.1]
      rw [hall, List.tail_cons]
      exact ⟨List.cons_ne_nil _ _, rfl⟩
    · split at h
      · obtain ⟨span, hspan, rfl⟩ := copySpan_eq_ok h
        simp only [Piece.source, List.cons_append, List.nil_append]
        rw [skipDoubled_append hspan]
        exact ⟨List.cons_ne_nil _ _, rfl⟩
      · split at h
        · rename_i hc
          obtain ⟨span, hspan, rfl⟩ := copySpan_eq_ok h
          have hall := skipDoubled_append hspan
          obtain ⟨t, rfl⟩ := List.head?_eq_some_iff.mp hc.2.1
          simp only [Piece.source, List.cons_append, List.nil_append]
          rw [hall, List.tail_cons]
          exact ⟨List.cons_ne_nil _ _, rfl⟩
        · split at h
          · rename_i hc
            obtain ⟨span, hspan, rfl⟩ := copySpan_eq_ok h
            refine ⟨?_, skipDollarQuoted_append hspan⟩
            obtain ⟨a, _, ha⟩ := Option.map_eq_some_iff.mp hspan
            obtain ⟨n, hn⟩ := Nat.exists_eq_succ_of_ne_zero hc.2.ne'
            obtain ⟨rfl, _⟩ := Prod.mk.inj ha
            rw [hn]
            exact List.cons_ne_nil _ _
          · split at h
            · rename_i hc
              split at h
              · rename_i hpair
                obtain ⟨rfl, rfl⟩ := Prod.mk.inj (Except.ok.inj h)
                obtain ⟨t, rfl⟩ := List.head?_eq_some_iff.mp hpair
                rw [hc]
                exact ⟨List.cons_ne_nil _ _, rfl⟩
              · obtain ⟨rfl, rfl⟩ := Prod.mk.inj (Except.ok.inj h)
                rw [hc]
                exact ⟨List.cons_ne_nil _ _, rfl⟩
            · obtain ⟨rfl, rfl⟩ := Prod.mk.inj (Except.ok.inj h)
              exact ⟨List.cons_ne_nil _ _, rfl⟩

theorem nextPiece_length {prev : Option Char} {c : Char} {sql : Text} {r : Piece × Text}
    (h : nextPiece prev c sql = .ok r) : r.2.length ≤ sql.length := by
  obtain ⟨hne, hall⟩ := nextPiece_source h
  have hlen := congrArg List.length hall
  have hpos := List.length_pos_iff.mpr hne
  rw [List.length_append, List.length_cons] at hlen
  omega

/-- The loop of `rewrite_placeholders`; the state is the character in front. -/
def pieces : Scanner (Option Char) Char Piece Char where
  step prev c sql := (nextPiece prev c sql).map fun r => (r.1, lastOf r.1, r.2)
  shortens := by
    intro prev c sql r h
    cases hnext : nextPiece prev c sql with
    | error e =>
      rw [hnext] at h
      cases h
    | ok a =>
      rw [hnext] at h
      obtain rfl := Except.ok.inj h
      exact nextPiece_length hnext

/-- The rewritten text and `placeholder_count`. -/
def rewritePlaceholders (sql : Text) : Except String (Text × ℕ) :=
  match pieces.read none sql with
  | .ok ps => .ok (emit '$' 0 ps, markCount ps)
  | .error opening => .error (unterminated opening)

end Uniorm.Libpq
