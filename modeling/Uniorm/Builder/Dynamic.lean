import Uniorm.Builder.Dialect
import Uniorm.Sql.Condition

/-! # The dynamic UPDATE and DELETE builders

`update_builder` and `remove_builder` collect WHERE clauses as raw text and
join them with `" AND "`. The statement they send is compared with what the
caller asked for: each placeholder bound to the value given for it, and a row
touched exactly when every clause holds of it. The first always holds; the
second holds for exactly the chains in which no clause carries an OR outside
parentheses, or that are made of a single clause.
-/
namespace Uniorm.Builder
open Sql

variable {V : Type}

structure WhereClause (V : Type) where
  sql : Text
  bound : List V

/-- What `execute_update` is called with. -/
structure Statement (V : Type) where
  sql : Text
  values : List V

structure UpdateBuilder (V : Type) where
  table : Text
  set : List (Text × V) := []
  wheres : List (WhereClause V) := []

structure RemoveBuilder (V : Type) where
  table : Text
  wheres : List (WhereClause V) := []

def blank (s : Text) : Bool := s.all isSpace

def andText : Text := [' ', 'A', 'N', 'D', ' ']

/-- The clauses after the first, each behind its `" AND "`. -/
def renderRest : List (WhereClause V) → Text
  | [] => []
  | c :: cs => andText ++ c.sql ++ renderRest cs

def renderWhere (clauses : List (WhereClause V)) (bound : List V) : Text × List V :=
  (match clauses with
    | [] => []
    | c :: cs => c.sql ++ renderRest cs,
   bound ++ clauses.flatMap (·.bound))

namespace UpdateBuilder

def setColumn (b : UpdateBuilder V) (column : Text) (value : V) : UpdateBuilder V :=
  { b with set := b.set ++ [(column, value)] }

def addWhere (b : UpdateBuilder V) (clause : Text) (p : List V) :
    Except BuilderError (UpdateBuilder V) :=
  if blank clause then .error .updateBlankWhere
  else .ok { b with wheres := b.wheres ++ [⟨clause, p⟩] }

def assignments (d : Dialect) : List (Text × V) → Except BuilderError Text
  | [] => .ok []
  | [(column, _)] => (d.quoteIdentifier column).map (· ++ [' ', '=', ' ', '?'])
  | (column, _) :: next :: rest => do
    let name ← d.quoteIdentifier column
    let more ← assignments d (next :: rest)
    pure (name ++ [' ', '=', ' ', '?'] ++ [',', ' '] ++ more)

def execute (d : Dialect) (b : UpdateBuilder V) : Except BuilderError (Statement V) :=
  if b.set.isEmpty then .error .updateNoColumns
  else if b.wheres.isEmpty then .error .updateNoWhere
  else do
    let table ← d.quoteIdentifier b.table
    let sets ← assignments d b.set
    let (clause, values) := renderWhere b.wheres (b.set.map (·.2))
    pure ⟨['U', 'P', 'D', 'A', 'T', 'E', ' '] ++ table ++ [' ', 'S', 'E', 'T', ' '] ++ sets ++
      [' ', 'W', 'H', 'E', 'R', 'E', ' '] ++ clause, values⟩

end UpdateBuilder

namespace RemoveBuilder

def addWhere (b : RemoveBuilder V) (clause : Text) (p : List V) :
    Except BuilderError (RemoveBuilder V) :=
  if blank clause then .error .removeBlankWhere
  else .ok { b with wheres := b.wheres ++ [⟨clause, p⟩] }

def execute (d : Dialect) (b : RemoveBuilder V) : Except BuilderError (Statement V) :=
  if b.wheres.isEmpty then .error .removeNoWhere
  else do
    let table ← d.quoteIdentifier b.table
    let (clause, values) := renderWhere b.wheres []
    pure ⟨['D', 'E', 'L', 'E', 'T', 'E', ' ', 'F', 'R', 'O', 'M', ' '] ++ table ++
      [' ', 'W', 'H', 'E', 'R', 'E', ' '] ++ clause, values⟩

end RemoveBuilder

def conditionOf (q : Quote) (s : Text) : Option (Tree .disj) := (lex q s).bind parse

def WhereClause.Fits (q : Quote) (w : WhereClause V) : Prop :=
  ∃ t, conditionOf q w.sql = some t ∧ w.bound.length = t.marks

def WhereClause.Holds (S : Semantics V) (q : Quote) (row : Column → V) (w : WhereClause V) : Prop :=
  ∃ t, conditionOf q w.sql = some t ∧ t.eval S row w.bound = some true

def boundClauses (q : Quote) : List (WhereClause V) → List (Token × Option V)
  | [] => []
  | [w] => bindMarks ((lex q w.sql).getD []) w.bound
  | w :: next :: rest => bindMarks ((lex q w.sql).getD []) w.bound ++
      (.and, none) :: boundClauses q (next :: rest)

def boundAssignments (d : Dialect) : List (Text × V) → List (Token × Option V)
  | [] => []
  | [(c, v)] => [(.quoted (d.foldIdentifier c), none), (.op .eq, none), (.mark, some v)]
  | (c, v) :: next :: rest =>
    [(.quoted (d.foldIdentifier c), none), (.op .eq, none), (.mark, some v), (.comma, none)] ++
      boundAssignments d (next :: rest)

def UpdateBuilder.head (d : Dialect) (b : UpdateBuilder V) : List (Token × Option V) :=
  [(.word ['U', 'P', 'D', 'A', 'T', 'E'], none), (.quoted (d.foldIdentifier b.table), none),
    (.word ['S', 'E', 'T'], none)] ++ boundAssignments d b.set ++
    [(.word ['W', 'H', 'E', 'R', 'E'], none)]

def RemoveBuilder.head (d : Dialect) (b : RemoveBuilder V) : List (Token × Option V) :=
  [(.word ['D', 'E', 'L', 'E', 'T', 'E'], none), (.word ['F', 'R', 'O', 'M'], none),
    (.quoted (d.foldIdentifier b.table), none), (.word ['W', 'H', 'E', 'R', 'E'], none)]

/-- A sent statement does what was asked: read as the server reads it, every placeholder has the
value the caller gave for it, and its condition is true of the rows all clauses are true of. -/
def Means (S : Semantics V) (q : Quote) (head : List (Token × Option V))
    (wheres : List (WhereClause V)) (stmt : Statement V) : Prop :=
  ∃ tokens condition, lex q stmt.sql = some tokens ∧
    bindMarks tokens stmt.values = head ++ boundClauses q wheres ∧
    parse (tokens.drop head.length) = some condition ∧
    ∀ row, condition.eval S row (stmt.values.drop (marks (head.map (·.1)))) = some true ↔
      ∀ w ∈ wheres, w.Holds S q row

/-- Chained clauses of these texts mean conjunction in every UPDATE and DELETE sent with them,
whatever the table, the columns and the values are. -/
def ChainMeansConjunction (S : Semantics V) (d : Dialect) (q : Quote) (texts : List Text) : Prop :=
  (∀ (b : UpdateBuilder V) (stmt : Statement V), b.wheres.map (·.sql) = texts →
    (∀ w ∈ b.wheres, w.Fits q) → b.execute d = .ok stmt → Means S q (b.head d) b.wheres stmt) ∧
  (∀ (b : RemoveBuilder V) (stmt : Statement V), b.wheres.map (·.sql) = texts →
    (∀ w ∈ b.wheres, w.Fits q) → b.execute d = .ok stmt → Means S q (b.head d) b.wheres stmt)

theorem conditionOf_eq_some {q : Quote} {s : Text} {t : Tree .disj} :
    conditionOf q s = some t ↔ lex q s = some t.tokens := by
  simp only [conditionOf, Option.bind_eq_some_iff, parse_iff]
  constructor
  · rintro ⟨tokens, hlex, rfl⟩
    exact hlex
  · exact fun h => ⟨_, h, rfl⟩

/-- A clause whose text spells a condition and whose values fill its placeholders. -/
def Spells (q : Quote) (w : WhereClause V) (t : Tree .disj) : Prop :=
  conditionOf q w.sql = some t ∧ w.bound.length = t.marks

theorem exists_spells {q : Quote} {ws : List (WhereClause V)} (h : ∀ w ∈ ws, w.Fits q) :
    ∃ ts, List.Forall₂ (Spells q) ws ts := by
  induction ws with
  | nil => exact ⟨[], .nil⟩
  | cons w ws ih =>
    obtain ⟨ts, hts⟩ := ih fun v hv => h v (List.mem_cons_of_mem w hv)
    obtain ⟨t, ht⟩ := h w List.mem_cons_self
    exact ⟨t :: ts, .cons ht hts⟩

def joinTrees : Tree .disj → List (Tree .disj) → Tree .disj
  | t, [] => t
  | t, u :: us => Tree.andJoin t (joinTrees u us)

theorem joinTrees_nil (t : Tree .disj) : joinTrees t [] = t := rfl

theorem joinTrees_cons (t u : Tree .disj) (us : List (Tree .disj)) :
    joinTrees t (u :: us) = Tree.andJoin t (joinTrees u us) := rfl

theorem lex_and (q : Quote) : lex q ['A', 'N', 'D'] = some [.and] := by cases q <;> rfl

theorem lex_renderWhere {q : Quote} {w : WhereClause V} {ws : List (WhereClause V)}
    {t : Tree .disj} {ts : List (Tree .disj)} (h : List.Forall₂ (Spells q) (w :: ws) (t :: ts)) :
    lex q (w.sql ++ renderRest ws) = some (joinTrees t ts).tokens := by
  obtain ⟨hw, hws⟩ := List.forall₂_cons.mp h
  have hlex := conditionOf_eq_some.mp hw.1
  induction ws generalizing w t ts with
  | nil =>
    cases hws
    rw [renderRest, List.append_nil, joinTrees_nil, hlex]
  | cons c cs ih =>
    cases hws with
    | cons hc hcs =>
      have hrest := ih (.cons hc hcs) hc hcs (conditionOf_eq_some.mp hc.1)
      have hsplit : w.sql ++ renderRest (c :: cs) =
          w.sql ++ ' ' :: (['A', 'N', 'D'] ++ ' ' :: (c.sql ++ renderRest cs)) := by
        simp [renderRest, andText]
      rw [hsplit, lex_append_blank hlex (lex_append_blank (lex_and q) hrest), joinTrees_cons,
        Tree.tokens_andJoin]
      rfl

theorem bindMarks_joinTrees {q : Quote} {w : WhereClause V} {ws : List (WhereClause V)}
    {t : Tree .disj} {ts : List (Tree .disj)} (h : List.Forall₂ (Spells q) (w :: ws) (t :: ts)) :
    bindMarks (joinTrees t ts).tokens ((w :: ws).flatMap (·.bound)) = boundClauses q (w :: ws) := by
  obtain ⟨hw, hws⟩ := List.forall₂_cons.mp h
  have hlex := conditionOf_eq_some.mp hw.1
  induction ws generalizing w t ts with
  | nil =>
    cases hws
    simp [joinTrees_nil, boundClauses, hlex]
  | cons c cs ih =>
    cases hws with
    | cons hc hcs =>
      have hrest := ih (.cons hc hcs) hc hcs (conditionOf_eq_some.mp hc.1)
      rw [List.flatMap_cons, joinTrees_cons, Tree.tokens_andJoin, bindMarks_append _ _ _ _ hw.2,
        bindMarks_cons_of_ne (by decide), hrest, boundClauses, hlex]
      rfl

theorem topOr_joinTrees (t : Tree .disj) (ts : List (Tree .disj)) :
    (joinTrees t ts).topOr = (t :: ts).any Tree.topOr := by
  induction ts generalizing t with
  | nil => simp [joinTrees_nil]
  | cons u us ih => rw [joinTrees_cons, Tree.topOr_andJoin, ih, List.any_cons (a := t)]

theorem marks_joinTrees {q : Quote} {w : WhereClause V} {ws : List (WhereClause V)}
    {t : Tree .disj} {ts : List (Tree .disj)} (h : List.Forall₂ (Spells q) (w :: ws) (t :: ts)) :
    ((w :: ws).flatMap (·.bound)).length = (joinTrees t ts).marks := by
  obtain ⟨hw, hws⟩ := List.forall₂_cons.mp h
  induction ws generalizing w t ts with
  | nil =>
    cases hws
    simp [joinTrees_nil, hw.2]
  | cons c cs ih =>
    cases hws with
    | cons hc hcs =>
      rw [List.flatMap_cons, List.length_append, ih (.cons hc hcs) hc hcs, hw.2, joinTrees_cons,
        Tree.marks_andJoin]

theorem holds_iff {S : Semantics V} {q : Quote} {row : Column → V} {w : WhereClause V}
    {t : Tree .disj} (h : Spells q w t) : w.Holds S q row ↔ t.eval S row w.bound = some true := by
  constructor
  · rintro ⟨u, hu, heval⟩
    obtain rfl := Option.some.inj (h.1.symm.trans hu)
    exact heval
  · exact fun heval => ⟨t, h.1, heval⟩

/-- Without an OR outside parentheses the joined text is true where all clauses are. -/
theorem eval_joinTrees {S : Semantics V} {q : Quote} {row : Column → V} {w : WhereClause V}
    {ws : List (WhereClause V)} {t : Tree .disj} {ts : List (Tree .disj)}
    (h : List.Forall₂ (Spells q) (w :: ws) (t :: ts)) (hor : ∀ u ∈ t :: ts, u.topOr = false) :
    (joinTrees t ts).eval S row ((w :: ws).flatMap (·.bound)) = some true ↔
      ∀ v ∈ w :: ws, v.Holds S q row := by
  obtain ⟨hw, hws⟩ := List.forall₂_cons.mp h
  induction ws generalizing w t ts with
  | nil =>
    cases hws
    simp [joinTrees_nil, holds_iff hw]
  | cons c cs ih =>
    cases hws with
    | @cons _ u _ us hc hcs =>
      have htail : ∀ v ∈ u :: us, v.topOr = false :=
        fun v hv => hor v (List.mem_cons_of_mem t hv)
      have hrest := ih (.cons hc hcs) htail hc hcs
      have hjoined : (joinTrees u us).topOr = false := by
        rw [topOr_joinTrees, List.any_eq_false]
        exact fun v hv => by simp [htail v hv]
      rw [List.flatMap_cons, joinTrees_cons, Tree.eval_andJoin_of_not_topOr
        (hor t List.mem_cons_self) hjoined hw.2 (marks_joinTrees (.cons hc hcs)), and3_true, hrest,
        List.forall_mem_cons (a := w), holds_iff hw]

structure Preamble (head : List (Token × Option V)) (values : List V) : Prop where
  filled : values.length = marks (head.map (·.1))
  bound : bindMarks (head.map (·.1)) values = head

structure Sends (q : Quote) (head : List (Token × Option V)) (wheres : List (WhereClause V))
    (stmt : Statement V) : Prop where
  exists_preamble : ∃ values, Preamble head values ∧
    stmt.values = values ++ wheres.flatMap (·.bound)
  lexed : ∀ t ts, List.Forall₂ (Spells q) wheres (t :: ts) →
    lex q stmt.sql = some (head.map (·.1) ++ (joinTrees t ts).tokens)

/-- Binding never goes wrong; the meaning is a question about the joined tree alone. -/
theorem Sends.means_iff {S : Semantics V} {q : Quote} {head : List (Token × Option V)}
    {w : WhereClause V} {ws : List (WhereClause V)} {stmt : Statement V} {t : Tree .disj}
    {ts : List (Tree .disj)} (hs : Sends q head (w :: ws) stmt)
    (h : List.Forall₂ (Spells q) (w :: ws) (t :: ts)) :
    Means S q head (w :: ws) stmt ↔
      ∀ row, (joinTrees t ts).eval S row ((w :: ws).flatMap (·.bound)) = some true ↔
        ∀ v ∈ w :: ws, v.Holds S q row := by
  obtain ⟨values, hpre, hvalues⟩ := hs.exists_preamble
  have hlex := hs.lexed t ts h
  have hdrop : stmt.values.drop (marks (head.map (·.1))) = (w :: ws).flatMap (·.bound) := by
    rw [hvalues, ← hpre.filled, List.drop_left]
  have htail : (head.map (·.1) ++ (joinTrees t ts).tokens).drop head.length =
      (joinTrees t ts).tokens := by
    rw [← List.length_map (f := (·.1)), List.drop_left]
  constructor
  · rintro ⟨tokens, condition, htokens, -, hparse, hmeaning⟩ row
    obtain rfl := Option.some.inj (hlex.symm.trans htokens)
    rw [htail, parse_iff] at hparse
    obtain rfl : condition = joinTrees t ts :=
      Option.some.inj (((parse_iff _ _).mpr hparse).symm.trans ((parse_iff _ _).mpr rfl))
    rw [← hdrop]
    exact hmeaning row
  · intro hmeaning
    refine ⟨_, joinTrees t ts, hlex, ?_, ?_, ?_⟩
    · rw [hvalues, bindMarks_append _ _ _ _ hpre.filled, hpre.bound, bindMarks_joinTrees h]
    · rw [htail, parse_iff]
    · rw [hdrop]
      exact hmeaning

theorem RemoveBuilder.execute_eq {d : Dialect} {b : RemoveBuilder V} {stmt : Statement V}
    (h : b.execute d = .ok stmt) : ∃ table, d.quoteIdentifier b.table = .ok table ∧
      stmt = ⟨['D', 'E', 'L', 'E', 'T', 'E', ' ', 'F', 'R', 'O', 'M', ' '] ++ table ++
        [' ', 'W', 'H', 'E', 'R', 'E', ' '] ++ (renderWhere b.wheres []).1,
        (renderWhere b.wheres []).2⟩ := by
  unfold RemoveBuilder.execute at h
  split at h
  · cases h
  · cases htable : d.quoteIdentifier b.table with
    | error e => rw [htable] at h; cases h
    | ok table =>
      rw [htable] at h
      exact ⟨table, rfl, (Except.ok.inj h).symm⟩

theorem lex_where (q : Quote) : lex q ['W', 'H', 'E', 'R', 'E'] =
    some [.word ['W', 'H', 'E', 'R', 'E']] := by cases q <;> rfl

theorem RemoveBuilder.sends {d : Dialect} {q : Quote} (hq : d.UsesQuote q) {b : RemoveBuilder V}
    {stmt : Statement V} (h : b.execute d = .ok stmt) : Sends q (b.head d) b.wheres stmt := by
  obtain ⟨table, htable, rfl⟩ := RemoveBuilder.execute_eq h
  refine ⟨⟨[], ⟨rfl, rfl⟩, rfl⟩, fun t ts hspells => ?_⟩
  have hdelete : lex q ['D', 'E', 'L', 'E', 'T', 'E'] =
      some [.word ['D', 'E', 'L', 'E', 'T', 'E']] := by cases q <;> rfl
  have hfrom : lex q ['F', 'R', 'O', 'M'] = some [.word ['F', 'R', 'O', 'M']] := by
    cases q <;> rfl
  cases hw : b.wheres with
  | nil => rw [hw] at hspells; cases hspells
  | cons w ws =>
    rw [hw] at hspells
    have hsplit : ['D', 'E', 'L', 'E', 'T', 'E', ' ', 'F', 'R', 'O', 'M', ' '] ++ table ++
        [' ', 'W', 'H', 'E', 'R', 'E', ' '] ++ (renderWhere (w :: ws) []).1 =
        ['D', 'E', 'L', 'E', 'T', 'E'] ++ ' ' :: (['F', 'R', 'O', 'M'] ++ ' ' :: (table ++ ' ' ::
          (['W', 'H', 'E', 'R', 'E'] ++ ' ' :: (w.sql ++ renderRest ws)))) := by
      simp [renderWhere]
    rw [hsplit, lex_append_blank hdelete (lex_append_blank hfrom (lex_append_blank
      (lex_quoteIdentifier hq htable) (lex_append_blank (lex_where q) (lex_renderWhere hspells))))]
    rfl

theorem UpdateBuilder.assignments_cons {d : Dialect} {c : Text} {v : V} {next : Text × V}
    {rest : List (Text × V)} {sets : Text}
    (h : UpdateBuilder.assignments d ((c, v) :: next :: rest) = .ok sets) :
    ∃ name more, d.quoteIdentifier c = .ok name ∧
      UpdateBuilder.assignments d (next :: rest) = .ok more ∧
      sets = name ++ [' ', '=', ' ', '?'] ++ [',', ' '] ++ more := by
  rw [UpdateBuilder.assignments] at h
  cases hname : d.quoteIdentifier c with
  | error e => rw [hname] at h; cases h
  | ok name =>
    cases hmore : UpdateBuilder.assignments d (next :: rest) with
    | error e => rw [hname, hmore] at h; cases h
    | ok more =>
      rw [hname, hmore] at h
      exact ⟨name, more, rfl, rfl, (Except.ok.inj h).symm⟩

theorem lex_equals (q : Quote) : lex q ['='] = some [.op .eq] := by cases q <;> rfl

theorem UpdateBuilder.lex_assignments {d : Dialect} {q : Quote} (hq : d.UsesQuote q)
    {set : List (Text × V)} {sets : Text} (h : UpdateBuilder.assignments d set = .ok sets) :
    lex q sets = some ((boundAssignments d set).map (·.1)) := by
  induction set generalizing sets with
  | nil =>
    obtain rfl := Except.ok.inj h
    rfl
  | cons cv rest ih =>
    obtain ⟨c, v⟩ := cv
    cases rest with
    | nil =>
      rw [UpdateBuilder.assignments] at h
      cases hname : d.quoteIdentifier c with
      | error e => rw [hname] at h; cases h
      | ok name =>
        rw [hname] at h
        obtain rfl := Except.ok.inj h
        have hmark : lex q ['?'] = some [.mark] := by cases q <;> rfl
        exact lex_append_blank (lex_quoteIdentifier hq hname)
          (lex_append_blank (lex_equals q) hmark)
    | cons next rest =>
      obtain ⟨name, more, hname, hmore, rfl⟩ := UpdateBuilder.assignments_cons h
      have hmark : lex q ['?', ','] = some [.mark, .comma] := by cases q <;> rfl
      have hsplit : name ++ [' ', '=', ' ', '?'] ++ [',', ' '] ++ more =
          name ++ ' ' :: (['='] ++ ' ' :: (['?', ','] ++ ' ' :: more)) := by simp
      rw [hsplit, lex_append_blank (lex_quoteIdentifier hq hname)
        (lex_append_blank (lex_equals q) (lex_append_blank hmark (ih hmore)))]
      rfl

/-- The SET list takes exactly the values that were set, in their order. -/
theorem preamble_boundAssignments (d : Dialect) (set : List (Text × V)) :
    Preamble (boundAssignments d set) (set.map (·.2)) := by
  induction set with
  | nil => exact ⟨rfl, rfl⟩
  | cons cv rest ih =>
    obtain ⟨c, v⟩ := cv
    cases rest with
    | nil => exact ⟨rfl, rfl⟩
    | cons next rest =>
      have hfilled := ih.filled
      refine ⟨?_, ?_⟩
      · rw [boundAssignments, List.map_append, marks_append, ← hfilled, List.map_cons,
          List.length_cons, Nat.add_comm]
        rfl
      · rw [boundAssignments, List.map_append]
        have hfirst := bindMarks_append [.quoted (d.foldIdentifier c), .op .eq, .mark, .comma]
          ((boundAssignments d (next :: rest)).map (·.1)) [v] ((next :: rest).map (·.2)) rfl
        rw [ih.bound] at hfirst
        exact hfirst

theorem UpdateBuilder.execute_eq {d : Dialect} {b : UpdateBuilder V} {stmt : Statement V}
    (h : b.execute d = .ok stmt) : ∃ table sets, d.quoteIdentifier b.table = .ok table ∧
      UpdateBuilder.assignments d b.set = .ok sets ∧
      stmt = ⟨['U', 'P', 'D', 'A', 'T', 'E', ' '] ++ table ++ [' ', 'S', 'E', 'T', ' '] ++ sets ++
        [' ', 'W', 'H', 'E', 'R', 'E', ' '] ++ (renderWhere b.wheres (b.set.map (·.2))).1,
        (renderWhere b.wheres (b.set.map (·.2))).2⟩ := by
  unfold UpdateBuilder.execute at h
  split at h
  · cases h
  · split at h
    · cases h
    · cases htable : d.quoteIdentifier b.table with
      | error e => rw [htable] at h; cases h
      | ok table =>
        cases hsets : UpdateBuilder.assignments d b.set with
        | error e => rw [htable, hsets] at h; cases h
        | ok sets =>
          rw [htable, hsets] at h
          exact ⟨table, sets, rfl, rfl, (Except.ok.inj h).symm⟩

theorem UpdateBuilder.preamble_head (d : Dialect) (b : UpdateBuilder V) :
    Preamble (b.head d) (b.set.map (·.2)) := by
  have hset := preamble_boundAssignments d b.set
  refine ⟨?_, ?_⟩
  · simp only [UpdateBuilder.head, List.map_append, marks_append, ← hset.filled]
    simp [marks]
  · have hwhere := bindMarks_append ((boundAssignments d b.set).map (·.1))
      [.word ['W', 'H', 'E', 'R', 'E']] _ [] hset.filled
    rw [List.append_nil, hset.bound] at hwhere
    simp only [UpdateBuilder.head, List.map_append, List.append_assoc]
    refine (bindMarks_append _ _ [] _ rfl).trans ?_
    rw [List.map_cons (l := []), List.map_nil, hwhere]
    rfl

theorem UpdateBuilder.sends {d : Dialect} {q : Quote} (hq : d.UsesQuote q) {b : UpdateBuilder V}
    {stmt : Statement V} (h : b.execute d = .ok stmt) : Sends q (b.head d) b.wheres stmt := by
  obtain ⟨table, sets, htable, hsets, rfl⟩ := UpdateBuilder.execute_eq h
  refine ⟨⟨b.set.map (·.2), b.preamble_head d, rfl⟩, fun t ts hspells => ?_⟩
  have hupdate : lex q ['U', 'P', 'D', 'A', 'T', 'E'] =
      some [.word ['U', 'P', 'D', 'A', 'T', 'E']] := by cases q <;> rfl
  have hset : lex q ['S', 'E', 'T'] = some [.word ['S', 'E', 'T']] := by cases q <;> rfl
  cases hw : b.wheres with
  | nil => rw [hw] at hspells; cases hspells
  | cons w ws =>
    rw [hw] at hspells
    have hsplit : ['U', 'P', 'D', 'A', 'T', 'E', ' '] ++ table ++ [' ', 'S', 'E', 'T', ' '] ++
        sets ++ [' ', 'W', 'H', 'E', 'R', 'E', ' '] ++
        (renderWhere (w :: ws) (b.set.map (·.2))).1 =
        ['U', 'P', 'D', 'A', 'T', 'E'] ++ ' ' :: (table ++ ' ' :: (['S', 'E', 'T'] ++ ' ' ::
          (sets ++ ' ' :: (['W', 'H', 'E', 'R', 'E'] ++ ' ' :: (w.sql ++ renderRest ws))))) := by
      simp [renderWhere]
    rw [hsplit, lex_append_blank hupdate (lex_append_blank (lex_quoteIdentifier hq htable)
      (lex_append_blank hset (lex_append_blank (UpdateBuilder.lex_assignments hq hsets)
        (lex_append_blank (lex_where q) (lex_renderWhere hspells)))))]
    simp [UpdateBuilder.head]

/-- No clause carries an OR outside parentheses. -/
def NoTopOr (q : Quote) (texts : List Text) : Prop :=
  ∀ s ∈ texts, ∀ t, conditionOf q s = some t → t.topOr = false

/-- A clause with values that give its condition the wanted truth on the probe row. -/
noncomputable def forced (S : Semantics V) (q : Quote) (b : Bool) (s : Text) : WhereClause V :=
  ⟨s, ((conditionOf q s).map (·.force S b)).getD []⟩

theorem forced_spells (S : Semantics V) {q : Quote} (b : Bool) {s : Text} {t : Tree .disj}
    (h : conditionOf q s = some t) : Spells q (forced S q b s) t := by
  refine ⟨h, ?_⟩
  rw [forced, h]
  exact t.force_length S b

theorem forced_holds_iff (S : Semantics V) {q : Quote} (b : Bool) {s : Text} {t : Tree .disj}
    (h : conditionOf q s = some t) :
    (forced S q b s).Holds S q (Tree.probeRow S) ↔ b = true := by
  rw [holds_iff (forced_spells S b h), forced, h, Option.map_some, Option.getD_some,
    t.eval_force, Option.some.injEq]

theorem fits_of_spells {q : Quote} {ws : List (WhereClause V)} {ts : List (Tree .disj)}
    (h : List.Forall₂ (Spells q) ws ts) : ∀ w ∈ ws, w.Fits q := by
  induction h with
  | nil => simp
  | cons hw _ ih =>
    rw [List.forall_mem_cons]
    exact ⟨⟨_, hw⟩, ih⟩

theorem exists_clause_of_mem {q : Quote} {ws : List (WhereClause V)} {ts : List (Tree .disj)}
    (h : List.Forall₂ (Spells q) ws ts) {u : Tree .disj} (hu : u ∈ ts) :
    ∃ w ∈ ws, Spells q w u := by
  induction h with
  | nil => cases hu
  | @cons w t ws ts hw _ ih =>
    rcases List.mem_cons.mp hu with rfl | hmem
    · exact ⟨w, List.mem_cons_self, hw⟩
    · obtain ⟨v, hv, hvu⟩ := ih hmem
      exact ⟨v, List.mem_cons_of_mem w hv, hvu⟩

theorem exists_trees {q : Quote} {texts : List Text}
    (h : ∀ s ∈ texts, (conditionOf q s).isSome = true) :
    ∃ ts, List.Forall₂ (fun s t => conditionOf q s = some t) texts ts := by
  induction texts with
  | nil => exact ⟨[], .nil⟩
  | cons s ss ih =>
    obtain ⟨ts, hts⟩ := ih fun v hv => h v (List.mem_cons_of_mem s hv)
    obtain ⟨t, ht⟩ := Option.isSome_iff_exists.mp (h s List.mem_cons_self)
    exact ⟨t :: ts, .cons ht hts⟩

theorem noTopOr_of_trees {q : Quote} {texts : List Text} {ts : List (Tree .disj)}
    (h : List.Forall₂ (fun s t => conditionOf q s = some t) texts ts)
    (hor : ts.any Tree.topOr = false) : NoTopOr q texts := by
  induction h with
  | nil => simp [NoTopOr]
  | @cons s t texts ts hs _ ih =>
    rw [List.any_cons, Bool.or_eq_false_iff] at hor
    refine List.forall_mem_cons.mpr ⟨fun u hu => ?_, ih hor.2⟩
    obtain rfl := Option.some.inj (hs.symm.trans hu)
    exact hor.1

theorem forced_all_spell (S : Semantics V) {q : Quote} (b : Bool) {texts : List Text}
    {ts : List (Tree .disj)} (h : List.Forall₂ (fun s t => conditionOf q s = some t) texts ts) :
    List.Forall₂ (Spells q) (texts.map (forced S q b)) ts := by
  induction h with
  | nil => exact .nil
  | cons hs _ ih => exact .cons (forced_spells S b hs) ih

theorem force_joinTrees (S : Semantics V) {q : Quote} (b : Bool) {s : Text} {texts : List Text}
    {t : Tree .disj} {ts : List (Tree .disj)}
    (h : List.Forall₂ (fun s t => conditionOf q s = some t) (s :: texts) (t :: ts)) :
    ((s :: texts).map (forced S q b)).flatMap (·.bound) = (joinTrees t ts).force S b := by
  obtain ⟨hs, hss⟩ := List.forall₂_cons.mp h
  induction texts generalizing s t ts with
  | nil =>
    cases hss
    simp [forced, hs, joinTrees_nil]
  | cons s' texts ih =>
    cases hss with
    | cons hs' hss' =>
      rw [List.map_cons, List.flatMap_cons, ih (.cons hs' hss') hs' hss', joinTrees_cons,
        Tree.force_andJoin, forced, hs]
      rfl

/-- With an OR outside parentheses somewhere, the joined text is true of a row that some clause
excludes. -/
theorem exists_excluded_row (S : Semantics V) {q : Quote} {s s' : Text} {texts : List Text}
    {t : Tree .disj} {ts : List (Tree .disj)}
    (h : List.Forall₂ (fun s t => conditionOf q s = some t) (s :: s' :: texts) (t :: ts))
    (hor : (t :: ts).any Tree.topOr = true) :
    ∃ wheres : List (WhereClause V), wheres.map (·.sql) = s :: s' :: texts ∧
      List.Forall₂ (Spells q) wheres (t :: ts) ∧
      (joinTrees t ts).eval S (Tree.probeRow S) (wheres.flatMap (·.bound)) = some true ∧
      ∃ w ∈ wheres, ¬ w.Holds S q (Tree.probeRow S) := by
  obtain ⟨hs, hss⟩ := List.forall₂_cons.mp h
  cases hss with
  | @cons _ u _ us hs' hss' =>
    have hsql (b : Bool) : ((s' :: texts).map (forced S q b)).map (·.sql) = s' :: texts := by
      rw [List.map_map]
      exact List.map_id _
    have hhead (b : Bool) : (forced S q b s).bound = t.force S b := by
      rw [forced, hs]
      rfl
    -- The clause with the OR is made true, the clauses on its other side false.
    cases ht : t.topOr with
    | true =>
      refine ⟨forced S q true s :: (s' :: texts).map (forced S q false), ?_,
        .cons (forced_spells S true hs) (forced_all_spell S false (.cons hs' hss')), ?_,
        forced S q false s', by simp, ?_⟩
      · rw [List.map_cons, hsql]
        rfl
      · rw [List.flatMap_cons, force_joinTrees S false (.cons hs' hss'), joinTrees_cons, hhead]
        exact Tree.eval_andJoin_topOr_left S ht _
      · rw [forced_holds_iff S false hs']
        exact Bool.false_ne_true
    | false =>
      refine ⟨forced S q false s :: (s' :: texts).map (forced S q true), ?_,
        .cons (forced_spells S false hs) (forced_all_spell S true (.cons hs' hss')), ?_,
        forced S q false s, List.mem_cons_self, ?_⟩
      · rw [List.map_cons, hsql]
        rfl
      · have hrest : (joinTrees u us).topOr = true := by
          rw [topOr_joinTrees]
          rwa [List.any_cons, ht, Bool.false_or] at hor
        rw [List.flatMap_cons, force_joinTrees S true (.cons hs' hss'), joinTrees_cons, hhead]
        exact Tree.eval_andJoin_topOr_right S t hrest
      · rw [forced_holds_iff S false hs]
        exact Bool.false_ne_true

theorem exists_delete (d : Dialect) {wheres : List (WhereClause V)} (h : wheres ≠ []) :
    ∃ stmt, (RemoveBuilder.mk ['t'] wheres).execute d = .ok stmt := by
  have hname : '\x00' ∉ d.foldIdentifier ['t'] := by
    unfold Dialect.foldIdentifier
    cases d.identifiers <;> decide
  have hempty : wheres.isEmpty = false := List.isEmpty_eq_false_iff.mpr h
  simp only [RemoveBuilder.execute, hempty, Dialect.quoteIdentifier, Dialect.quoteExactIdentifier,
    hname, if_false]
  exact ⟨_, rfl⟩

theorem means_of_noTopOr {S : Semantics V} {q : Quote} {head : List (Token × Option V)}
    {texts : List Text} {wheres : List (WhereClause V)} {stmt : Statement V} (hne : texts ≠ [])
    (hcond : texts.length = 1 ∨ NoTopOr q texts) (hsql : wheres.map (·.sql) = texts)
    (hfits : ∀ w ∈ wheres, w.Fits q) (hs : Sends q head wheres stmt) :
    Means S q head wheres stmt := by
  subst hsql
  obtain ⟨ts, hts⟩ := exists_spells hfits
  cases hts with
  | nil => exact absurd rfl hne
  | @cons w t ws ts hw hws =>
    refine (hs.means_iff (.cons hw hws)).mpr fun row => ?_
    rcases hcond with hone | hor
    · have hnil : ws = [] := by simpa using hone
      subst hnil
      cases hws
      simp [joinTrees_nil, holds_iff hw]
    · refine eval_joinTrees (.cons hw hws) fun u hu => ?_
      obtain ⟨v, hv, hvu⟩ := exists_clause_of_mem (.cons hw hws) hu
      exact hor v.sql (List.mem_map_of_mem hv) u hvu.1

/-- Every placeholder of a chain has the caller's value, and the chain means conjunction, exactly
when it has a single clause or no clause carries an OR outside parentheses. -/
theorem chain_means_conjunction_iff (S : Semantics V) (dbmsName : Text)
    (policy : Option IdentifierCase) {texts : List Text} (hne : texts ≠ [])
    (hcomplete : ∀ s ∈ texts,
      (conditionOf (sqlDialect dbmsName policy).quote s).isSome = true) :
    ChainMeansConjunction S (sqlDialect dbmsName policy) (sqlDialect dbmsName policy).quote texts ↔
      texts.length = 1 ∨ NoTopOr (sqlDialect dbmsName policy).quote texts := by
  have hq := sqlDialect_usesQuote dbmsName policy
  generalize sqlDialect dbmsName policy = d at hq hcomplete
  constructor
  · intro hmeans
    by_contra hcond
    obtain ⟨hlen, hor⟩ := not_or.mp hcond
    obtain ⟨ts, hts⟩ := exists_trees hcomplete
    cases hts with
    | nil => exact hne rfl
    | @cons s t ss ts hs hss =>
      cases hss with
      | nil => exact hlen rfl
      | @cons s' u ss' us hs' hss' =>
        have htop : (t :: u :: us).any Tree.topOr = true := by
          by_contra hnone
          exact hor (noTopOr_of_trees (.cons hs (.cons hs' hss')) (Bool.eq_false_iff.mpr hnone))
        obtain ⟨wheres, hsql, hspells, heval, w, hw, hexcluded⟩ :=
          exists_excluded_row S (.cons hs (.cons hs' hss')) htop
        cases hspells with
        | @cons v _ vs _ hv hvs =>
          obtain ⟨stmt, hstmt⟩ := exists_delete d (List.cons_ne_nil v vs)
          have hsent := hmeans.2 _ stmt hsql (fits_of_spells (.cons hv hvs)) hstmt
          have hrow := ((RemoveBuilder.sends hq hstmt).means_iff (.cons hv hvs)).mp hsent
          exact hexcluded ((hrow (Tree.probeRow S)).mp heval w hw)
  · intro hcond
    refine ⟨fun b stmt hsql hfits h => ?_, fun b stmt hsql hfits h => ?_⟩
    · exact means_of_noTopOr hne hcond hsql hfits (UpdateBuilder.sends hq h)
    · exact means_of_noTopOr hne hcond hsql hfits (RemoveBuilder.sends hq h)

def integers : Semantics (Option ℤ) where
  compare
    | .eq, some a, some b => some (decide (a = b))
    | .ne, some a, some b => some (decide (a ≠ b))
    | .lt, some a, some b => some (decide (a < b))
    | .le, some a, some b => some (decide (a ≤ b))
    | .gt, some a, some b => some (decide (b < a))
    | .ge, some a, some b => some (decide (b ≤ a))
    | _, _, _ => none
  probe := some 0
  probe_left o b := by
    cases o <;> cases b <;> first | exact ⟨some 0, rfl⟩ | exact ⟨some 1, rfl⟩ | exact ⟨some (-1), rfl⟩
  probe_right o b := by
    cases o <;> cases b <;> first | exact ⟨some 0, rfl⟩ | exact ⟨some 1, rfl⟩ | exact ⟨some (-1), rfl⟩

/-- A chain of two clauses, the second with its OR in parentheses. -/
theorem parenthesized_chain_means_conjunction :
    ChainMeansConjunction integers (sqlDialect [] none) .double
      [['c', ' ', '=', ' ', '?'],
        ['(', 'a', ' ', '=', ' ', '?', ' ', 'O', 'R', ' ', 'b', ' ', '=', ' ', '?', ')']] :=
  (chain_means_conjunction_iff integers [] none (by decide) (by decide)).mpr
    (.inr (by
      intro s hs t ht
      simp only [List.mem_cons, List.not_mem_nil, or_false] at hs
      rcases hs with rfl | rfl
      · obtain rfl := Option.some.inj ht.symm
        rfl
      · obtain rfl := Option.some.inj ht.symm
        rfl))

/-- `DELETE FROM "t" WHERE a = ? OR b = ? AND c = ?` reaches a row the second clause excludes. -/
theorem top_level_or_reaches_excluded_row :
    let first : WhereClause (Option ℤ) :=
      ⟨['a', ' ', '=', ' ', '?', ' ', 'O', 'R', ' ', 'b', ' ', '=', ' ', '?'], [some 1, some 2]⟩
    let second : WhereClause (Option ℤ) := ⟨['c', ' ', '=', ' ', '?'], [some 3]⟩
    let row : Column → Option ℤ := fun _ => some 1
    (∃ stmt, (RemoveBuilder.mk ['t'] [first, second]).execute (sqlDialect [] none) = .ok stmt ∧
      ((lex .double stmt.sql).bind fun ts => (parse (ts.drop 4)).bind fun t =>
        t.eval integers row stmt.values) = some true) ∧
    ¬ second.Holds integers .double row ∧
    ¬ ChainMeansConjunction integers (sqlDialect [] none) .double [first.sql, second.sql] := by
  intro first second row
  have hsecond : Spells .double second (.ofConj (.ofFact (.cmp (.columnMark (.plain ['c']) .eq)))) :=
    ⟨rfl, rfl⟩
  have hfirst : Spells .double first (.or (.ofConj (.ofFact (.cmp (.columnMark (.plain ['a']) .eq))))
      (.ofFact (.cmp (.columnMark (.plain ['b']) .eq)))) := ⟨rfl, rfl⟩
  have hexcluded : ¬ second.Holds integers .double row := by
    rw [holds_iff hsecond]
    decide
  obtain ⟨stmt, hstmt⟩ := exists_delete (sqlDialect [] none) (List.cons_ne_nil first [second])
  have hquote : (sqlDialect [] none).quote = .double := by decide
  have hsends := RemoveBuilder.sends (sqlDialect_usesQuote [] none) hstmt
  rw [hquote] at hsends
  have hspells := List.Forall₂.cons hfirst (.cons hsecond .nil)
  have heval : (joinTrees (.or (.ofConj (.ofFact (.cmp (.columnMark (.plain ['a']) .eq))))
      (.ofFact (.cmp (.columnMark (.plain ['b']) .eq))))
      [.ofConj (.ofFact (.cmp (.columnMark (.plain ['c']) .eq)))]).eval integers row
      [some 1, some 2, some 3] = some true := by
    rw [joinTrees_cons, joinTrees_nil, Tree.andJoin, Tree.conjJoin]
    decide
  refine ⟨⟨stmt, hstmt, ?_⟩, hexcluded, fun hchain => ?_⟩
  · obtain ⟨table, -, rfl⟩ := RemoveBuilder.execute_eq hstmt
    rw [hsends.lexed _ _ hspells, Option.bind_some]
    refine (congrArg (Option.bind · _) ((parse_iff _ _).mpr rfl)).trans ?_
    exact heval
  · have hmeans := (hsends.means_iff hspells).mp
      (hchain.2 _ stmt rfl (fits_of_spells hspells) hstmt)
    exact hexcluded ((hmeans row).mp heval second (by simp))

end Uniorm.Builder
