import Uniorm.Sql.Atom
import Uniorm.Sql.Placeholder

/-! # Statements as a server reads them

The tokens of a SELECT, an UPDATE or a DELETE are read as a statement, and a
statement says what it does to the rows of a table. How values are compared and
put in order is the server's. Where the keys of an order leave rows alike, the
server may have them in any order.
-/
namespace Uniorm.Sql

open Foundation

section Answers
variable {ρ κ S : Type*}

def page (limit : Option ℕ) (offset : ℕ) (rows : List ρ) : List ρ :=
  match limit with
  | none => rows.drop offset
  | some n => (rows.drop offset).take n

/-- One row may stand in front of the other: the first key that tells them apart says so. A key is
ascending or descending. -/
def Ordered (le : S → S → Prop) : List (κ × Bool) → (κ → S) → (κ → S) → Prop
  | [], _, _ => True
  | (key, descending) :: keys, a, b =>
    let front := if descending then b key else a key
    let back := if descending then a key else b key
    le front back ∧ (le back front → Ordered le keys a b)

def Answers (holds : ρ → Bool) (before : ρ → ρ → Prop) (limit : Option ℕ) (offset : ℕ)
    (rows out : List ρ) : Prop :=
  ∃ sorted : List ρ, sorted.Perm (rows.filter holds) ∧ sorted.Pairwise before ∧
    out = page limit offset sorted

theorem ordered_map {κ' : Type*} (le : S → S → Prop) (name : κ → κ') (keys : List (κ × Bool))
    (a b : κ' → S) : Ordered le (keys.map fun key => (name key.1, key.2)) a b ↔
      Ordered le keys (fun key => a (name key)) fun key => b (name key) := by
  induction keys with
  | nil => exact Iff.rfl
  | cons key keys ih =>
    obtain ⟨key, descending⟩ := key
    rw [List.map_cons, Ordered, Ordered]
    exact and_congr_right fun _ => imp_congr_right fun _ => ih

end Answers

structure Condition where
  pieces : List Part
  tree : Tree .disj

inductive Statement where
  | select (columns table : List Text) (condition : Option Condition) (orders : List (Text × Bool))
    (limit : Option ℕ) (offset : ℕ)
  | count (table : List Text) (condition : Option Condition)
  | update (table assigned : List Text) (condition : Condition)
  | delete (table : List Text) (condition : Condition)

/-- A statement with the number of its placeholders. -/
structure Prepared where
  statement : Statement
  marks : ℕ

abbrev Row (S : Type*) := Column → S

/-- How a server compares values, and how it puts them in ascending order. -/
structure Server (S : Type*) where
  meaning : Meaning S
  le : S → S → Prop

/-- What comes of a statement: rows, a number, or the table as it is afterwards with the number of
the rows concerned. -/
inductive Outcome (S : Type*) where
  | rows (rows : List (List S))
  | count (n : ℕ)
  | table (rows : List (Row S)) (affected : ℕ)

section Runs
variable {S : Type*}

def Condition.value (c : Condition) (M : Meaning S) (values : List S) (row : Row S) : Option Bool :=
  c.tree.eval propositional (fun _ => none) (truths M row c.pieces values)

def Condition.selects (c : Condition) (M : Meaning S) (values : List S) (row : Row S) : Bool :=
  c.value M values row == some true

def selects (c : Option Condition) (M : Meaning S) (values : List S) (row : Row S) : Bool :=
  match c with
  | none => true
  | some c => c.selects M values row

def writeRow (names : List Text) (values : List S) (row : Row S) : Row S
  | .quoted name => ((names.zip values).lookup name).getD (row (.quoted name))
  | .plain w => row (.plain w)

/-- What a statement may do, its placeholders bound from left to right. No column is assigned
twice. -/
def Statement.Runs (srv : Server S) (db : List Text → List (Row S)) (values : List S) :
    Statement → Outcome S → Prop
  | .select columns table condition orders limit offset, .rows out => ∃ kept,
    Answers (selects condition srv.meaning values)
      (fun a b => Ordered srv.le orders (fun name => a (.quoted name)) fun name => b (.quoted name))
      limit offset (db table) kept ∧
    out = kept.map fun row => columns.map fun name => row (.quoted name)
  | .count table condition, .count n =>
    n = ((db table).filter (selects condition srv.meaning values)).length
  | .update table assigned condition, .table rows affected =>
    let given := values.take assigned.length
    let selected := condition.selects srv.meaning (values.drop assigned.length)
    assigned.Nodup ∧ affected = ((db table).filter selected).length ∧
      rows = (db table).map fun row => if selected row then writeRow assigned given row else row
  | .delete table condition, .table rows affected =>
    let selected := condition.selects srv.meaning values
    affected = ((db table).filter selected).length ∧ rows = (db table).filter fun row => !selected row
  | _, _ => False

end Runs

def keywordSelect : Text := ['S', 'E', 'L', 'E', 'C', 'T']
def keywordFrom : Text := ['F', 'R', 'O', 'M']
def keywordWhere : Text := ['W', 'H', 'E', 'R', 'E']
def keywordOrder : Text := ['O', 'R', 'D', 'E', 'R']
def keywordBy : Text := ['B', 'Y']
def keywordAsc : Text := ['A', 'S', 'C']
def keywordDesc : Text := ['D', 'E', 'S', 'C']
def keywordLimit : Text := ['L', 'I', 'M', 'I', 'T']
def keywordOffset : Text := ['O', 'F', 'F', 'S', 'E', 'T']
def keywordRows : Text := ['R', 'O', 'W', 'S']
def keywordFetch : Text := ['F', 'E', 'T', 'C', 'H']
def keywordNext : Text := ['N', 'E', 'X', 'T']
def keywordOnly : Text := ['O', 'N', 'L', 'Y']
def keywordUpdate : Text := ['U', 'P', 'D', 'A', 'T', 'E']
def keywordSet : Text := ['S', 'E', 'T']
def keywordDelete : Text := ['D', 'E', 'L', 'E', 'T', 'E']

/-- `COUNT(*)` with the keywords around it. -/
def countHead : Text :=
  ['S', 'E', 'L', 'E', 'C', 'T', ' ', 'C', 'O', 'U', 'N', 'T', '(', '*', ')', ' ', 'F', 'R', 'O', 'M',
    ' ']

def takeWord (keyword : Text) : List Token → Option (List Token)
  | .word w :: ts => if w = keyword then some ts else none
  | _ => none

/-- A name, or two with a dot between them. -/
def readTable : List Token → Option (List Text × List Token)
  | .quoted a :: ts =>
    match takeWord ['.'] ts with
    | some (.quoted b :: more) => some ([a, b], more)
    | _ => some ([a], ts)
  | _ => none

def readNames : List Token → Option (List Text × List Token)
  | .quoted a :: .comma :: ts => (readNames ts).map fun r => (a :: r.1, r.2)
  | .quoted a :: ts => some ([a], ts)
  | _ => none

def endsCondition : Token → Bool
  | .word w => [keywordOrder, keywordLimit, keywordOffset].contains w
  | _ => false

def readCondition (ts : List Token) : Option Condition := do
  let pieces ← (parts.read () ts).toOption
  let tree ← parse (skeleton pieces)
  pure ⟨pieces, tree⟩

def readWhere (ts : List Token) : Option (Option Condition × List Token) :=
  match takeWord keywordWhere ts with
  | none => some (none, ts)
  | some more =>
    (readCondition (more.takeWhile fun t => !endsCondition t)).map fun c =>
      (some c, more.dropWhile fun t => !endsCondition t)

def readKeys : List Token → Option (List (Text × Bool) × List Token)
  | .quoted name :: .word w :: .comma :: ts =>
    if w = keywordAsc ∨ w = keywordDesc then
      (readKeys ts).map fun r => ((name, w == keywordDesc) :: r.1, r.2)
    else none
  | .quoted name :: .word w :: ts =>
    if w = keywordAsc ∨ w = keywordDesc then some ([(name, w == keywordDesc)], ts) else none
  | _ => none

def readOrders (ts : List Token) : Option (List (Text × Bool) × List Token) :=
  match takeWord keywordOrder ts with
  | none => some ([], ts)
  | some more => (takeWord keywordBy more).bind readKeys

def readNumber : Token → Option ℕ
  | .word w => if isNumber w then some (numberOf w) else none
  | _ => none

/-- The end of a SELECT: `OFFSET n ROWS FETCH NEXT k ROWS ONLY` where the server has it, else
`LIMIT k OFFSET n`, in which no OFFSET stands without a LIMIT. -/
def readPage (ansi : Bool) : List Token → Option (Option ℕ × ℕ)
  | [] => some (none, 0)
  | [offset, n, rows] =>
    if ansi ∧ [offset, rows] = [.word keywordOffset, .word keywordRows] then
      (readNumber n).map fun n => (none, n)
    else none
  | [offset, n, rows, fetch, next, k, rows', only] =>
    if ansi ∧ [offset, rows, fetch, next, rows', only] = [.word keywordOffset, .word keywordRows,
        .word keywordFetch, .word keywordNext, .word keywordRows, .word keywordOnly] then
      (readNumber n).bind fun n => (readNumber k).map fun k => (some k, n)
    else none
  | [limit, k] =>
    if ¬ansi ∧ limit = .word keywordLimit then (readNumber k).map fun k => (some k, 0) else none
  | [limit, k, offset, n] =>
    if ¬ansi ∧ [limit, offset] = [.word keywordLimit, .word keywordOffset] then
      (readNumber n).bind fun n => (readNumber k).map fun k => (some k, n)
    else none
  | _ => none

def readSelect (ansi : Bool) (columns : List Text) (ts : List Token) : Option Statement := do
  let ts ← takeWord keywordFrom ts
  let (table, ts) ← readTable ts
  let (condition, ts) ← readWhere ts
  let (orders, ts) ← readOrders ts
  let (limit, offset) ← readPage ansi ts
  pure (.select columns table condition orders limit offset)

def readCount (ts : List Token) : Option Statement := do
  let (table, ts) ← readTable ts
  let (condition, ts) ← readWhere ts
  if ts = [] then pure (.count table condition) else none

def readLast (ts : List Token) : Option Condition := do
  let (condition, ts) ← readWhere ts
  if ts = [] then condition else none

def readAssigned : List Token → Option (List Text × List Token)
  | .quoted name :: .op .eq :: .mark :: .comma :: ts =>
    (readAssigned ts).map fun r => (name :: r.1, r.2)
  | .quoted name :: .op .eq :: .mark :: ts => some ([name], ts)
  | _ => none

def readUpdate (ts : List Token) : Option Statement := do
  let (table, ts) ← readTable ts
  let ts ← takeWord keywordSet ts
  let (assigned, ts) ← readAssigned ts
  let condition ← readLast ts
  pure (.update table assigned condition)

def readDelete (ts : List Token) : Option Statement := do
  let ts ← takeWord keywordFrom ts
  let (table, ts) ← readTable ts
  let condition ← readLast ts
  pure (.delete table condition)

def readTokens (ansi : Bool) : List Token → Option Statement
  | .word w :: ts =>
    if w = keywordSelect then (readNames ts).bind fun r => readSelect ansi r.1 r.2
    else if w = keywordUpdate then readUpdate ts
    else if w = keywordDelete then readDelete ts
    else none
  | _ => none

/-- The statement of a text, on a server with the given quote and the given end of a SELECT. -/
def prepare (q : Quote) (ansi : Bool) (text : Text) : Option Prepared :=
  if countHead.isPrefixOf text then
    (lex q (text.drop countHead.length)).bind fun ts => (readCount ts).map (⟨·, marks ts⟩)
  else (lex q text).bind fun ts => (readTokens ansi ts).map (⟨·, marks ts⟩)

/-- Names as they are spelled, with a comma between two. -/
def nameTokens (names : List Text) : List Token :=
  [Token.comma].intercalate (names.map fun name => [.quoted name])

def tableTokens : List Text → List Token
  | [] => []
  | [name] => [.quoted name]
  | qualifier :: name :: _ => [.quoted qualifier, .word ['.'], .quoted name]

def keyTokens (key : Text × Bool) : List Token :=
  [.quoted key.1, .word (if key.2 then keywordDesc else keywordAsc)]

def orderTokens (orders : List (Text × Bool)) : List Token :=
  if orders = [] then []
  else .word keywordOrder :: .word keywordBy :: [Token.comma].intercalate (orders.map keyTokens)

def pageTokens (ansi : Bool) (limit : Option ℕ) (offset : ℕ) : List Token :=
  if ansi then
    match limit with
    | none =>
      if 0 < offset then [.word keywordOffset, .word (numeral offset), .word keywordRows] else []
    | some n => [.word keywordOffset, .word (numeral offset), .word keywordRows, .word keywordFetch,
        .word keywordNext, .word (numeral n), .word keywordRows, .word keywordOnly]
  else (match limit with
    | none => []
    | some n => [.word keywordLimit, .word (numeral n)]) ++
    if 0 < offset then [.word keywordOffset, .word (numeral offset)] else []

section Spelled
variable {rest : List Token}

theorem takeWord_self (keyword : Text) : takeWord keyword (.word keyword :: rest) = some rest :=
  if_pos rfl

theorem takeWord_other {w keyword : Text} (h : w ≠ keyword) :
    takeWord keyword (.word w :: rest) = none := if_neg h

theorem readNames_names (names : List Text) (w : Text) :
    readNames (nameTokens names ++ .word w :: rest) =
      if names = [] then none else some (names, .word w :: rest) := by
  induction names with
  | nil => rfl
  | cons name names ih =>
    cases names with
    | nil => rfl
    | cons next names =>
      have hcons : nameTokens (name :: next :: names) ++ .word w :: rest =
          .quoted name :: .comma :: (nameTokens (next :: names) ++ .word w :: rest) := by
        rw [nameTokens, List.map_cons, List.map_cons, List.intercalate_cons_cons, List.append_assoc]
        rfl
      rw [hcons, readNames, ih, if_neg (List.cons_ne_nil _ _), if_neg (List.cons_ne_nil _ _)]
      rfl

theorem readTable_tokens {table : List Text} (hne : table ≠ []) (hle : table.length ≤ 2)
    (hrest : takeWord ['.'] rest = none) : readTable (tableTokens table ++ rest) =
      some (table, rest) := by
  obtain _ | ⟨name, _ | ⟨next, _ | ⟨third, more⟩⟩⟩ := table
  · exact absurd rfl hne
  · rw [tableTokens, List.singleton_append, readTable, hrest]
  · rfl
  · exact absurd hle (by simp)

theorem readKeys_orders {orders : List (Text × Bool)} (hne : orders ≠ [])
    (hrest : rest.head? ≠ some .comma) :
    readKeys ([Token.comma].intercalate (orders.map keyTokens) ++ rest) = some (orders, rest) := by
  induction orders with
  | nil => exact absurd rfl hne
  | cons key orders ih =>
    obtain ⟨name, descending⟩ := key
    cases orders with
    | nil =>
      have hlast : [Token.comma].intercalate ([(name, descending)].map keyTokens) ++ rest =
          .quoted name :: .word (if descending then keywordDesc else keywordAsc) :: rest := rfl
      rw [hlast, readKeys]
      · cases descending <;> rfl
      · rintro ts rfl
        exact hrest rfl
    | cons next orders =>
      have hcons : [Token.comma].intercalate (((name, descending) :: next :: orders).map keyTokens) ++
          rest = .quoted name :: .word (if descending then keywordDesc else keywordAsc) :: .comma ::
            ([Token.comma].intercalate ((next :: orders).map keyTokens) ++ rest) := by
        rw [List.map_cons, List.map_cons, List.intercalate_cons_cons, List.append_assoc]
        rfl
      rw [hcons, readKeys, ih (List.cons_ne_nil _ _)]
      cases descending <;> rfl

theorem readOrders_tokens (orders : List (Text × Bool)) (hcomma : rest.head? ≠ some .comma)
    (horder : takeWord keywordOrder rest = none) :
    readOrders (orderTokens orders ++ rest) = some (orders, rest) := by
  rw [orderTokens]
  split_ifs with hempty
  · rw [List.nil_append, readOrders, horder, hempty]
  · rw [List.cons_append, List.cons_append, readOrders, takeWord_self]
    exact readKeys_orders hempty hcomma

theorem readWhere_condition {ts : List Token} {c : Condition} (hread : readCondition ts = some c)
    (hts : ∀ t ∈ ts, endsCondition t = false) (hrest : ∀ t ∈ rest.head?, endsCondition t = true) :
    readWhere (.word keywordWhere :: (ts ++ rest)) = some (some c, rest) := by
  have hgoes : ∀ t ∈ ts, (!endsCondition t) = true := fun t ht => by rw [hts t ht, Bool.not_false]
  have hstops : rest.takeWhile (fun t => !endsCondition t) = [] ∧
      rest.dropWhile (fun t => !endsCondition t) = rest := by
    cases rest with
    | nil => exact ⟨rfl, rfl⟩
    | cons t rest =>
      have hend := hrest t rfl
      exact ⟨List.takeWhile_cons_of_neg (by simp [hend]), List.dropWhile_cons_of_neg (by simp [hend])⟩
  rw [readWhere, takeWord_self]
  simp only
  rw [List.takeWhile_append_of_pos hgoes, List.dropWhile_append_of_pos hgoes, hstops.1, hstops.2,
    List.append_nil, hread, Option.map_some]

theorem readWhere_none (hrest : takeWord keywordWhere rest = none) :
    readWhere rest = some (none, rest) := by
  rw [readWhere, hrest]

theorem numberOf_numeral (n : ℕ) : numberOf (numeral n) = n :=
  Nat.ofDigitChars_eq_foldl.symm.trans Nat.ofDigitChars_ten_toDigits

theorem readNumber_numeral (n : ℕ) : readNumber (.word (numeral n)) = some n := by
  have hnumber : isNumber (numeral n) = true := by
    rw [isNumber, Bool.and_eq_true, List.all_eq_true]
    exact ⟨by simpa using numeral_ne_nil n, fun c hc => isDigit_of_mem_numeral hc⟩
  rw [readNumber, if_pos hnumber, numberOf_numeral]

/-- An offset without a limit is not read where LIMIT has to come first. -/
theorem readPage_tokens (ansi : Bool) (limit : Option ℕ) (offset : ℕ) :
    readPage ansi (pageTokens ansi limit offset) =
      if ansi = true ∨ limit ≠ none ∨ offset = 0 then some (limit, offset) else none := by
  rcases Nat.eq_zero_or_pos offset with rfl | hoffset
  · cases ansi <;> cases limit <;> simp [pageTokens, readPage, readNumber_numeral]
  · have hne : offset ≠ 0 := Nat.ne_of_gt hoffset
    have hkeyword : keywordOffset ≠ keywordLimit := by decide
    cases ansi <;> cases limit <;>
      simp [pageTokens, readPage, readNumber_numeral, hoffset, hne, hkeyword]

def BeginsClause (ts : List Token) : Prop := ∀ t ∈ ts.head?, endsCondition t = true

theorem BeginsClause.takeWord {keyword : Text} (h : BeginsClause rest)
    (hkeyword : keyword ∉ [keywordOrder, keywordLimit, keywordOffset]) :
    takeWord keyword rest = none := by
  cases rest with
  | nil => rfl
  | cons t rest =>
    have hends := h t rfl
    cases t with
    | word w =>
      rw [endsCondition, List.contains_iff_mem] at hends
      exact takeWord_other fun hw => hkeyword (hw ▸ hends)
    | _ => rfl

theorem pageTokens_cases (ansi : Bool) (limit : Option ℕ) (offset : ℕ) :
    pageTokens ansi limit offset = [] ∨ ∃ w more, w ∈ [keywordLimit, keywordOffset] ∧
      pageTokens ansi limit offset = .word w :: more := by
  rcases Nat.eq_zero_or_pos offset with rfl | hoffset
  · cases ansi <;> cases limit <;> simp [pageTokens]
  · cases ansi <;> cases limit <;> simp [pageTokens, hoffset]

theorem beginsClause_nil : BeginsClause [] := fun _ ht => absurd ht (Option.not_mem_none _)

theorem beginsClause_page (ansi : Bool) (limit : Option ℕ) (offset : ℕ) :
    BeginsClause (pageTokens ansi limit offset) := by
  rcases pageTokens_cases ansi limit offset with h | ⟨w, more, hw, h⟩
  · rw [h]
    exact beginsClause_nil
  · rw [h]
    intro t ht
    obtain rfl := Option.some.inj ht
    rw [endsCondition, List.contains_iff_mem]
    exact List.mem_cons_of_mem _ hw

theorem beginsClause_orders (orders : List (Text × Bool)) (h : BeginsClause rest) :
    BeginsClause (orderTokens orders ++ rest) := by
  rw [orderTokens]
  split_ifs
  · exact h
  · intro t ht
    obtain rfl := Option.some.inj ht
    rfl

theorem takeWord_order_page (ansi : Bool) (limit : Option ℕ) (offset : ℕ) :
    takeWord keywordOrder (pageTokens ansi limit offset) = none := by
  rcases pageTokens_cases ansi limit offset with h | ⟨w, more, hw, h⟩
  · rw [h]
    rfl
  · rw [h]
    have hother : keywordOrder ∉ [keywordLimit, keywordOffset] := by decide
    exact takeWord_other fun heq => hother (heq ▸ hw)

/-- The tokens of a WHERE that may be missing. -/
inductive WhereTokens : Option Condition → List Token → Prop where
  | missing : WhereTokens none []
  | given {c : Condition} {ts : List Token} (hread : readCondition ts = some c)
      (hts : ∀ t ∈ ts, endsCondition t = false) : WhereTokens (some c) (.word keywordWhere :: ts)

variable {condition : Option Condition} {ts : List Token} {table : List Text}

theorem WhereTokens.read (h : WhereTokens condition ts) (hrest : BeginsClause rest) :
    readWhere (ts ++ rest) = some (condition, rest) := by
  cases h with
  | missing => exact readWhere_none (hrest.takeWord (by decide))
  | given hread hts => exact readWhere_condition hread hts hrest

theorem WhereTokens.takeWord_dot (h : WhereTokens condition ts) (hrest : BeginsClause rest) :
    takeWord ['.'] (ts ++ rest) = none := by
  cases h with
  | missing => exact hrest.takeWord (by decide)
  | given => exact takeWord_other (by decide)

theorem read_select (ansi : Bool) (columns : List Text) (hne : table ≠ [])
    (hle : table.length ≤ 2) (h : WhereTokens condition ts) (orders : List (Text × Bool))
    (limit : Option ℕ) (offset : ℕ) :
    readTokens ansi (.word keywordSelect :: (nameTokens columns ++ (.word keywordFrom ::
      (tableTokens table ++ (ts ++ (orderTokens orders ++ pageTokens ansi limit offset)))))) =
      if columns ≠ [] ∧ (ansi = true ∨ limit ≠ none ∨ offset = 0) then
        some (.select columns table condition orders limit offset)
      else none := by
  have hpage := beginsClause_page ansi limit offset
  have horders := beginsClause_orders orders hpage
  have hcomma : (pageTokens ansi limit offset).head? ≠ some .comma := by
    intro hhead
    exact absurd (hpage .comma hhead) Bool.false_ne_true
  rw [readTokens, if_pos rfl, readNames_names]
  by_cases hcolumns : columns = []
  · rw [if_pos hcolumns, if_neg fun hboth => hboth.1 hcolumns]
    rfl
  · rw [if_neg hcolumns, Option.bind_some, readSelect]
    simp only [takeWord_self, readTable_tokens hne hle (h.takeWord_dot horders), h.read horders,
      readOrders_tokens orders hcomma (takeWord_order_page ansi limit offset), readPage_tokens,
      Option.bind_eq_bind, Option.bind_some, hcolumns, ne_eq, not_false_iff, true_and]
    split_ifs <;> rfl

theorem read_count (hne : table ≠ []) (hle : table.length ≤ 2) (h : WhereTokens condition ts) :
    readCount (tableTokens table ++ ts) = some (.count table condition) := by
  have hdot := h.takeWord_dot beginsClause_nil
  have hwhere := h.read beginsClause_nil
  rw [List.append_nil] at hdot hwhere
  rw [readCount, readTable_tokens hne hle hdot]
  simp [hwhere]

theorem read_last {c : Condition} (hread : readCondition ts = some c)
    (hts : ∀ t ∈ ts, endsCondition t = false) : readLast (.word keywordWhere :: ts) = some c := by
  have hwhere := (WhereTokens.given hread hts).read beginsClause_nil
  rw [List.append_nil] at hwhere
  rw [readLast, hwhere]
  rfl

theorem readAssigned_names {names : List Text} (hne : names ≠ []) (hrest : rest.head? ≠ some .comma) :
    readAssigned ([Token.comma].intercalate (names.map fun name => [.quoted name, .op .eq, .mark]) ++
      rest) = some (names, rest) := by
  induction names with
  | nil => exact absurd rfl hne
  | cons name names ih =>
    cases names with
    | nil =>
      rw [List.map_singleton, List.intercalate_singleton, List.cons_append, List.cons_append,
        List.cons_append, List.nil_append, readAssigned]
      rintro more rfl
      exact hrest rfl
    | cons next names =>
      have hcons : [Token.comma].intercalate ((name :: next :: names).map fun name =>
          [Token.quoted name, .op .eq, .mark]) ++ rest = .quoted name :: .op .eq :: .mark :: .comma ::
            ([Token.comma].intercalate ((next :: names).map fun name =>
              [Token.quoted name, .op .eq, .mark]) ++ rest) := by
        rw [List.map_cons, List.map_cons, List.intercalate_cons_cons, List.append_assoc]
        rfl
      rw [hcons, readAssigned, ih (List.cons_ne_nil _ _)]
      rfl

theorem read_update (ansi : Bool) (hne : table ≠ []) (hle : table.length ≤ 2) {names : List Text}
    (hnames : names ≠ []) {c : Condition} (hread : readCondition ts = some c)
    (hts : ∀ t ∈ ts, endsCondition t = false) :
    readTokens ansi (.word keywordUpdate :: (tableTokens table ++ (.word keywordSet ::
      ([Token.comma].intercalate (names.map fun name => [.quoted name, .op .eq, .mark]) ++
        .word keywordWhere :: ts)))) = some (.update table names c) := by
  have hselect : keywordUpdate ≠ keywordSelect := by decide
  have hset : keywordSet ≠ ['.'] := by decide
  rw [readTokens, if_neg hselect, if_pos rfl, readUpdate,
    readTable_tokens hne hle (takeWord_other hset)]
  simp only [takeWord_self, Option.bind_eq_bind, Option.bind_some]
  rw [readAssigned_names hnames (by simp)]
  simp only [Option.bind_some, read_last hread hts]
  rfl

theorem read_delete (ansi : Bool) (hne : table ≠ []) (hle : table.length ≤ 2) {c : Condition}
    (hread : readCondition ts = some c) (hts : ∀ t ∈ ts, endsCondition t = false) :
    readTokens ansi (.word keywordDelete :: .word keywordFrom :: (tableTokens table ++
      .word keywordWhere :: ts)) = some (.delete table c) := by
  have hselect : keywordDelete ≠ keywordSelect := by decide
  have hupdate : keywordDelete ≠ keywordUpdate := by decide
  have hwhere : keywordWhere ≠ ['.'] := by decide
  rw [readTokens, if_neg hselect, if_neg hupdate, if_pos rfl, readDelete, takeWord_self]
  simp only [Option.bind_eq_bind, Option.bind_some]
  rw [readTable_tokens hne hle (takeWord_other hwhere)]
  simp only [Option.bind_some, read_last hread hts]
  rfl

end Spelled

end Uniorm.Sql
