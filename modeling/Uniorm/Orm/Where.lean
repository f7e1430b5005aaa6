import Uniorm.Builder.Meaning
import Uniorm.Orm.Query

/-! # The WHERE of the typed builders

A query, an update or a remove renders the trees of its `where` calls behind WHERE. Whatever the
trees are, the text means all of them together, and its placeholders are the values appended.
-/
namespace Uniorm.Orm

open Foundation Sql Builder

universe u

section
variable {R : Type u} {V K : Type} {E : Type*} [DecidableEq K] {m : EntityMeta R V}
  (keyOf : m.Index → K) (d : Dialect)

def EntityMeta.nameOf (m : EntityMeta R V) (keyOf : m.Index → K) (d : Dialect) (key : K) : Text :=
  match m.keyColumn keyOf key with
  | some i => m.spelled d i
  | none => []

variable {keyOf} {d}

theorem columnSqlOf_resolves {q : Quote} (hq : d.UsesQuote q) :
    Predicate.Resolves q (m.nameOf keyOf d)
      (m.columnSqlOf keyOf d : K → Except (QueryError E) Text) := by
  intro key text h
  rw [EntityMeta.columnSqlOf] at h
  rw [EntityMeta.nameOf]
  cases hkey : m.keyColumn keyOf key with
  | none =>
    rw [hkey] at h
    cases h
  | some i =>
    rw [hkey] at h
    exact columnSql_eq hq (mapError_eq_ok.mp h)

theorem whereSql_renders {q : Quote} (hq : d.UsesQuote q) {wheres : List (Predicate K (Option V))}
    {r : Text × List (Option V)}
    (h : (m.whereSql keyOf d wheres : Except (QueryError E) _) = .ok r) :
    ∃ texts, List.Forall₂ (Predicate.Renders q (m.nameOf keyOf d)) wheres texts ∧
      r = (Predicate.joined texts, wheres.flatMap Predicate.values) := by
  obtain ⟨parts, hparts, hr⟩ := bind_eq_ok.mp h
  obtain rfl := Except.ok.inj hr
  have hall := forall₂_of_mapM hparts
  refine ⟨parts.map Prod.fst, ?_, ?_⟩
  · rw [List.forall₂_map_right_iff]
    exact hall.imp fun p r hpr => (Predicate.toSql_renders (columnSqlOf_resolves hq) hpr).1
  · have hvalues : parts.flatMap Prod.snd = wheres.flatMap Predicate.values := by
      clear hparts h hr
      induction hall with
      | nil => rfl
      | cons hpr _ ih =>
        rw [List.flatMap_cons, List.flatMap_cons, ih,
          (Predicate.toSql_renders (columnSqlOf_resolves hq) hpr).2]
    rw [← hvalues]
    rfl

end

def namedMarks {K : Type u} {S : Type} (q : Quote) (name : K → Text) (p : Predicate K S) : ℕ :=
  (p.keys.map fun key => (delimited q (name key)).count '?').sum

theorem count_marks {α : Type} (x : α) (l : List α) :
    ([',', ' '].intercalate ((x :: l).map fun _ => ['?'])).count '?' = (x :: l).length := by
  induction l generalizing x with
  | nil => rfl
  | cons y l ih =>
    have hcons : [',', ' '].intercalate ((x :: y :: l).map fun _ => ['?']) =
        ['?', ',', ' '] ++ [',', ' '].intercalate ((y :: l).map fun _ => ['?']) := by
      simp [List.intercalate]
    rw [hcons, List.count_append, ih]
    exact Nat.add_comm _ _

theorem count_renders {K : Type u} {S : Type} {q : Quote} {name : K → Text} {p : Predicate K S}
    {text : Text} (h : Predicate.Renders q name p text) :
    text.count '?' = p.values.length + namedMarks q name p := by
  induction h with
  | comparison key op v =>
    have hop : (compOpText op).count '?' = 0 := by cases op <;> rfl
    simp only [List.count_append, hop, namedMarks, Predicate.keys, Predicate.values, List.map_cons,
      List.map_nil, List.sum_cons, List.sum_nil]
    exact Nat.add_comm _ 1
  | inNone key => rfl
  | inList key v vs =>
    rw [List.count_append, List.count_append, List.count_append, count_marks]
    simp only [namedMarks, Predicate.keys, Predicate.values, List.isEmpty_cons,
      Bool.false_eq_true, if_false, List.map_cons, List.map_nil, List.sum_cons, List.sum_nil]
    have hin : [' ', 'I', 'N', ' ', '('].count '?' = 0 := rfl
    have hclose : [')'].count '?' = 0 := rfl
    omega
  | isNull key =>
    simp only [List.count_append, namedMarks, Predicate.keys, Predicate.values, List.map_cons,
      List.map_nil, List.sum_cons, List.sum_nil]
    exact Nat.add_comm _ 0
  | isNotNull key =>
    simp only [List.count_append, namedMarks, Predicate.keys, Predicate.values, List.map_cons,
      List.map_nil, List.sum_cons, List.sum_nil]
    exact Nat.add_comm _ 0
  | like key pattern =>
    simp only [List.count_append, namedMarks, Predicate.keys, Predicate.values, List.map_cons,
      List.map_nil, List.sum_cons, List.sum_nil]
    exact Nat.add_comm _ 1
  | @conjunction lhs rhs l r _ _ ihl ihr =>
    have hcount : (['('] ++ l ++ [' ', 'A', 'N', 'D', ' '] ++ r ++ [')']).count '?' =
        l.count '?' + r.count '?' := by simp [List.count_append]
    rw [hcount, ihl, ihr]
    simp only [namedMarks, Predicate.keys, Predicate.values, List.map_append, List.sum_append,
      List.length_append]
    omega
  | @disjunction lhs rhs l r _ _ ihl ihr =>
    have hcount : (['('] ++ l ++ [' ', 'O', 'R', ' '] ++ r ++ [')']).count '?' =
        l.count '?' + r.count '?' := by simp [List.count_append]
    rw [hcount, ihl, ihr]
    simp only [namedMarks, Predicate.keys, Predicate.values, List.map_append, List.sum_append,
      List.length_append]
    omega

theorem count_joined {K : Type u} {S : Type} {q : Quote} {name : K → Text}
    {ps : List (Predicate K S)} {texts : List Text}
    (h : List.Forall₂ (Predicate.Renders q name) ps texts) :
    (Predicate.joined texts).count '?' =
      (ps.flatMap Predicate.values).length + (ps.map (namedMarks q name)).sum := by
  have hmore {ps : List (Predicate K S)} {ts : List Text}
      (h : List.Forall₂ (Predicate.Renders q name) ps ts) :
      (ts.flatMap ([' ', 'A', 'N', 'D', ' '] ++ ·)).count '?' =
        (ps.flatMap Predicate.values).length + (ps.map (namedMarks q name)).sum := by
    induction h with
    | nil => rfl
    | @cons p t ps ts hp _ ih =>
      have hand : [' ', 'A', 'N', 'D', ' '].count '?' = 0 := rfl
      simp only [List.flatMap_cons, List.count_append, hand, ih, count_renders hp, List.map_cons,
        List.sum_cons, List.length_append]
      omega
  cases h with
  | nil => rfl
  | cons hp hps =>
    rw [Predicate.joined_cons, List.count_append, hmore hps, count_renders hp, List.flatMap_cons,
      List.length_append, List.map_cons, List.sum_cons]
    omega

/-- What a WHERE is meant to be for the trees it was rendered from. -/
structure MeansAll {K : Type u} {S : Type} (q : Quote) (name : K → Text)
    (ps : List (Predicate K S)) (text : Text) (values : List S) : Prop where
  /-- The values of the trees are appended from left to right. -/
  inOrder : values = ps.flatMap Predicate.values
  /-- There are as many placeholders; a mark in the name of a column is none. -/
  placeholders : ∃ tokens, lex q text = some tokens ∧ marks tokens = values.length
  marks : text.count '?' = values.length + (ps.map (namedMarks q name)).sum
  truth : ∀ (M : Meaning S) (row : Sql.Column → S), conditionValue M row q text values =
    some (Predicate.valueOfAll M (fun key => row (.quoted (name key))) ps)

theorem meansAll {K : Type u} {S : Type} {q : Quote} {name : K → Text} {ps : List (Predicate K S)}
    {texts : List Text} (h : List.Forall₂ (Predicate.Renders q name) ps texts) (hne : ps ≠ []) :
    MeansAll q name ps (Predicate.joined texts) (ps.flatMap Predicate.values) := by
  cases h with
  | nil => exact absurd rfl hne
  | cons hp hps =>
    exact ⟨rfl, ⟨_, Predicate.joined_lex hp hps, Predicate.joined_marks hp hps⟩,
      count_joined (.cons hp hps), Predicate.conditionValue_joined hp hps⟩

section
variable {R : Type u} {V K : Type} {E : Type*} [DecidableEq K] {m : EntityMeta R V}

/-- The trees chained by `where`. -/
def CoreStatement.wheres : CoreStatement K m → Option (List (Predicate K (Option V)))
  | select shape _ => some shape.wheres
  | count shape => some shape.wheres
  | update _ wheres => some wheres
  | remove wheres => some wheres
  | _ => none

/-- The values in front of those of the WHERE. -/
def CoreStatement.assigned : CoreStatement K m → List (Option V)
  | update sets _ => sets.map Prod.snd
  | _ => []

def wherePrefix : Text := [' ', 'W', 'H', 'E', 'R', 'E', ' ']

theorem optionalWhere_eq {keyOf : m.Index → K} {d : Dialect}
    {wheres : List (Predicate K (Option V))} (hne : wheres ≠ []) {r : Text × List (Option V)}
    (h : (m.optionalWhere keyOf d wheres : Except (QueryError E) _) = .ok r) :
    ∃ w, (m.whereSql keyOf d wheres : Except (QueryError E) _) = .ok w ∧
      r = (wherePrefix ++ w.1, w.2) := by
  rw [EntityMeta.optionalWhere, if_neg (by simpa using hne)] at h
  obtain ⟨w, hw, hr⟩ := bind_eq_ok.mp h
  exact ⟨w, hw, (Except.ok.inj hr).symm⟩

/-- A statement with trees has their WHERE in its text, and their values behind the assigned
ones. -/
theorem render_where {keyOf : m.Index → K} {d : Dialect} {s : CoreStatement K m}
    {ps : List (Predicate K (Option V))} (hs : s.wheres = some ps) (hne : ps ≠ [])
    {r : Text × List (Option V)} (h : (s.render keyOf d : Except (QueryError E) _) = .ok r) :
    ∃ head tail w, (m.whereSql keyOf d ps : Except (QueryError E) _) = .ok w ∧
      r.1 = head ++ wherePrefix ++ w.1 ++ tail ∧ r.2 = s.assigned ++ w.2 := by
  cases s with
  | select shape lim =>
    obtain rfl := Option.some.inj hs
    obtain ⟨columns, -, h⟩ := bind_eq_ok.mp h
    obtain ⟨table, -, h⟩ := bind_eq_ok.mp h
    obtain ⟨condition, hcondition, h⟩ := bind_eq_ok.mp h
    obtain ⟨orders, -, h⟩ := bind_eq_ok.mp h
    obtain rfl := Except.ok.inj h
    obtain ⟨w, hw, rfl⟩ := optionalWhere_eq hne hcondition
    exact ⟨['S', 'E', 'L', 'E', 'C', 'T', ' '] ++ [',', ' '].intercalate columns ++
      [' ', 'F', 'R', 'O', 'M', ' '] ++ table, orders ++ d.pagination lim shape.offset, w, hw,
      by simp only [List.append_assoc], rfl⟩
  | count shape =>
    obtain rfl := Option.some.inj hs
    obtain ⟨table, -, h⟩ := bind_eq_ok.mp h
    obtain ⟨condition, hcondition, h⟩ := bind_eq_ok.mp h
    obtain rfl := Except.ok.inj h
    obtain ⟨w, hw, rfl⟩ := optionalWhere_eq hne hcondition
    exact ⟨_ ++ table, [], w, hw, (List.append_assoc _ _ _).symm.trans
      (List.append_nil _).symm, rfl⟩
  | update sets wheres =>
    obtain rfl := Option.some.inj hs
    rw [CoreStatement.render, EntityMeta.typedUpdate] at h
    split_ifs at h
    obtain ⟨table, -, h⟩ := bind_eq_ok.mp h
    obtain ⟨parts, -, h⟩ := bind_eq_ok.mp h
    obtain ⟨w, hw, h⟩ := bind_eq_ok.mp h
    obtain rfl := Except.ok.inj h
    exact ⟨_ ++ [',', ' '].intercalate parts, [], w, hw, (List.append_nil _).symm, rfl⟩
  | remove wheres =>
    obtain rfl := Option.some.inj hs
    rw [CoreStatement.render, EntityMeta.typedRemove] at h
    split_ifs at h
    obtain ⟨w, hw, h⟩ := bind_eq_ok.mp h
    obtain ⟨table, -, h⟩ := bind_eq_ok.mp h
    obtain rfl := Except.ok.inj h
    exact ⟨_ ++ table, [], w, hw, (List.append_nil _).symm, rfl⟩
  | insertRow => cases hs
  | updateRow => cases hs
  | deleteRow => cases hs

/-- The trees chained on a query, an update or a remove render to their meaning, whatever the server
and the policy. -/
theorem predicates_render_to_meaning (keyOf : m.Index → K) (dbmsName : Text)
    (policy : Option IdentifierCase) (s : CoreStatement K m) {ps : List (Predicate K (Option V))}
    (hs : s.wheres = some ps) (hne : ps ≠ []) {r : Text × List (Option V)}
    (h : (s.render keyOf (sqlDialect dbmsName policy) : Except (QueryError E) _) = .ok r) :
    ∃ head tail text values, r.1 = head ++ wherePrefix ++ text ++ tail ∧
      r.2 = s.assigned ++ values ∧
      MeansAll (sqlDialect dbmsName policy).quote (m.nameOf keyOf (sqlDialect dbmsName policy)) ps
        text values := by
  obtain ⟨head, tail, w, hw, htext, hvalues⟩ := render_where hs hne h
  obtain ⟨texts, hall, rfl⟩ := whereSql_renders (sqlDialect_usesQuote dbmsName policy) hw
  exact ⟨head, tail, _, _, htext, hvalues, meansAll hall hne⟩

end

def oneColumn : EntityMeta Unit Bool where
  table := ['t']
  columns := [.flag ['a'] true]
  resolved := none

/-- `remove` of the rows whose column is null or among no values. -/
theorem remove_means : ∃ head tail text values, delimited .double ['t'] = ['"', 't', '"'] ∧
    ['D', 'E', 'L', 'E', 'T', 'E', ' ', 'F', 'R', 'O', 'M', ' ', '"', 't', '"'] ++ wherePrefix ++
      ['(', '"', 'a', '"', ' ', 'I', 'S', ' ', 'N', 'U', 'L', 'L', ' ', 'O', 'R', ' ', '1', ' ',
        '=', ' ', '0', ')'] = head ++ wherePrefix ++ text ++ tail ∧
    ([] : List (Option Bool)) = [] ++ values ∧
    MeansAll .double (oneColumn.nameOf (fun _ => ()) (sqlDialect [] none))
      [.disjunction (.nullCheck () false) (.inList () [])] text values := by
  obtain ⟨head, tail, text, values, htext, hvalues, hmeans⟩ :=
    predicates_render_to_meaning (m := oneColumn) (E := Empty) (fun _ => ()) [] none
      (.remove [.disjunction (.nullCheck () false) (.inList () [])]) rfl (by simp) rfl
  exact ⟨head, tail, text, values, rfl, htext, hvalues, hmeans⟩

example {S : Type} (M : Meaning S) (cell : Unit → S) :
    Predicate.valueOfAll M cell [.inList () []] = some false := rfl

end Uniorm.Orm
