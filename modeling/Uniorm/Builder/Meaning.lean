import Uniorm.Builder.Expression
import Uniorm.Orm.Statement
import Uniorm.Sql.Atom

/-! # What predicate trees mean

A tree has a truth for every row: three-valued, with `&&` and `||` for AND and OR. The text it
renders to is read back as the pieces of a condition whose operators form the same tree, since every
`&&` and `||` stands in parentheses of its own.
-/
namespace Uniorm.Builder

open Foundation Sql Orm

universe u w

namespace Predicate
variable {K : Type u} {S : Type} {ε : Type w}

/-- The truth of a tree for a row with the given cells. -/
def value (M : Meaning S) (cell : K → S) : Predicate K S → Option Bool
  | empty => none
  | comparison key op v => M.compare op (cell key) v
  | inList key values => M.among (cell key) values
  | nullCheck key negated => some (M.isNull (cell key) != negated)
  | like key pattern => M.like (cell key) pattern
  | conjunction lhs rhs => and3 (lhs.value M cell) (rhs.value M cell)
  | disjunction lhs rhs => or3 (lhs.value M cell) (rhs.value M cell)

def values : Predicate K S → List S
  | comparison _ _ v => [v]
  | inList _ values => values
  | like _ pattern => [pattern]
  | conjunction lhs rhs => lhs.values ++ rhs.values
  | disjunction lhs rhs => lhs.values ++ rhs.values
  | _ => []

/-- The truths of the simple conditions of a tree from left to right. -/
def leaves (M : Meaning S) (cell : K → S) : Predicate K S → List (Option Bool)
  | conjunction lhs rhs => lhs.leaves M cell ++ rhs.leaves M cell
  | disjunction lhs rhs => lhs.leaves M cell ++ rhs.leaves M cell
  | p => [p.value M cell]

section
variable (M : Meaning S) (cell : K → S) (lhs rhs : Predicate K S)

theorem value_conjunction : (conjunction lhs rhs).value M cell =
    and3 (lhs.value M cell) (rhs.value M cell) := rfl

theorem value_disjunction : (disjunction lhs rhs).value M cell =
    or3 (lhs.value M cell) (rhs.value M cell) := rfl

theorem values_conjunction : (conjunction lhs rhs).values = lhs.values ++ rhs.values := rfl

theorem values_disjunction : (disjunction lhs rhs).values = lhs.values ++ rhs.values := rfl

theorem leaves_conjunction : (conjunction lhs rhs).leaves M cell =
    lhs.leaves M cell ++ rhs.leaves M cell := rfl

theorem leaves_disjunction : (disjunction lhs rhs).leaves M cell =
    lhs.leaves M cell ++ rhs.leaves M cell := rfl

end

/-- The texts a tree is rendered to, with `name` for the name of each column. -/
inductive Renders (q : Quote) (name : K → Text) : Predicate K S → Text → Prop where
  | comparison (key : K) (op : CompOp) (v : S) : Renders q name (.comparison key op v)
      (delimited q (name key) ++ [' '] ++ compOpText op ++ [' ', '?'])
  | inNone (key : K) : Renders q name (.inList key []) ['1', ' ', '=', ' ', '0']
  | inList (key : K) (v : S) (vs : List S) : Renders q name (.inList key (v :: vs))
      (delimited q (name key) ++ [' ', 'I', 'N', ' ', '('] ++
        [',', ' '].intercalate ((v :: vs).map fun _ => ['?']) ++ [')'])
  | isNull (key : K) : Renders q name (.nullCheck key false)
      (delimited q (name key) ++ [' ', 'I', 'S', ' ', 'N', 'U', 'L', 'L'])
  | isNotNull (key : K) : Renders q name (.nullCheck key true)
      (delimited q (name key) ++ [' ', 'I', 'S', ' ', 'N', 'O', 'T', ' ', 'N', 'U', 'L', 'L'])
  | like (key : K) (pattern : S) : Renders q name (.like key pattern)
      (delimited q (name key) ++ [' ', 'L', 'I', 'K', 'E', ' ', '?'])
  | conjunction {lhs rhs : Predicate K S} {l r : Text} (hl : Renders q name lhs l)
      (hr : Renders q name rhs r) : Renders q name (.conjunction lhs rhs)
      (['('] ++ l ++ [' ', 'A', 'N', 'D', ' '] ++ r ++ [')'])
  | disjunction {lhs rhs : Predicate K S} {l r : Text} (hl : Renders q name lhs l)
      (hr : Renders q name rhs r) : Renders q name (.disjunction lhs rhs)
      (['('] ++ l ++ [' ', 'O', 'R', ' '] ++ r ++ [')'])

def Resolves (q : Quote) (name : K → Text) (resolve : K → Except ε Text) : Prop :=
  ∀ key text, resolve key = .ok text → text = delimited q (name key)

theorem toSql_renders {q : Quote} {name : K → Text} {whenEmpty : ε} {resolve : K → Except ε Text}
    (hresolve : Resolves q name resolve) {p : Predicate K S} {r : Text × List S}
    (h : p.toSql whenEmpty resolve = .ok r) : Renders q name p r.1 ∧ r.2 = p.values := by
  induction p generalizing r with
  | empty => cases h
  | comparison key op v =>
    rw [toSql] at h
    obtain ⟨column, hcolumn, rfl⟩ := map_eq_ok.mp h
    rw [hresolve key column hcolumn]
    exact ⟨.comparison key op v, rfl⟩
  | inList key values =>
    cases values with
    | nil =>
      obtain rfl := Except.ok.inj h
      exact ⟨.inNone key, rfl⟩
    | cons v vs =>
      rw [toSql, if_neg (by simp)] at h
      obtain ⟨column, hcolumn, rfl⟩ := map_eq_ok.mp h
      rw [hresolve key column hcolumn]
      exact ⟨.inList key v vs, rfl⟩
  | nullCheck key negated =>
    rw [toSql] at h
    obtain ⟨column, hcolumn, rfl⟩ := map_eq_ok.mp h
    rw [hresolve key column hcolumn]
    cases negated with
    | false => exact ⟨.isNull key, rfl⟩
    | true => exact ⟨.isNotNull key, rfl⟩
  | like key pattern =>
    rw [toSql] at h
    obtain ⟨column, hcolumn, rfl⟩ := map_eq_ok.mp h
    rw [hresolve key column hcolumn]
    exact ⟨.like key pattern, rfl⟩
  | conjunction lhs rhs ihl ihr =>
    rw [toSql] at h
    split at h
    · cases h
    · cases h
    · rename_i hl hr
      obtain rfl := Except.ok.inj h
      obtain ⟨hleft, hlv⟩ := ihl hl
      obtain ⟨hright, hrv⟩ := ihr hr
      exact ⟨.conjunction hleft hright, by rw [values, hlv, hrv]⟩
  | disjunction lhs rhs ihl ihr =>
    rw [toSql] at h
    split at h
    · cases h
    · cases h
    · rename_i hl hr
      obtain rfl := Except.ok.inj h
      obtain ⟨hleft, hlv⟩ := ihl hl
      obtain ⟨hright, hrv⟩ := ihr hr
      exact ⟨.disjunction hleft hright, by rw [values, hlv, hrv]⟩

/-- The pieces of the condition a tree renders to. -/
def parts (name : K → Text) : Predicate K S → List Part
  | empty => []
  | comparison key op _ => [.atom (.compare (.quoted (name key)) op)]
  | inList key values =>
    [.atom (if values.isEmpty then .constants ['1'] ['0']
      else .among (.quoted (name key)) values.length)]
  | nullCheck key negated => [.atom (.null (.quoted (name key)) negated)]
  | like key _ => [.atom (.like (.quoted (name key)))]
  | conjunction lhs rhs =>
    .operator .lparen :: (lhs.parts name ++ .operator .and :: rhs.parts name ++ [.operator .rparen])
  | disjunction lhs rhs =>
    .operator .lparen :: (lhs.parts name ++ .operator .or :: rhs.parts name ++ [.operator .rparen])

theorem parts_conjunction (name : K → Text) (lhs rhs : Predicate K S) :
    (conjunction lhs rhs).parts name =
      .operator .lparen :: (lhs.parts name ++ .operator .and :: rhs.parts name ++
        [.operator .rparen]) := rfl

theorem parts_disjunction (name : K → Text) (lhs rhs : Predicate K S) :
    (disjunction lhs rhs).parts name =
      .operator .lparen :: (lhs.parts name ++ .operator .or :: rhs.parts name ++
        [.operator .rparen]) := rfl

/-- The text goes on with something that is neither part of a word nor a delimiter. -/
def Ends (q : Quote) (t : Text) : Prop := ∀ c ∈ t.head?, isWordChar c = false ∧ c ≠ q.char

variable {q : Quote} {name : K → Text}

theorem ends_blank (t : Text) : Ends q (' ' :: t) := by
  intro c hc
  obtain rfl := Option.some.inj hc
  exact ⟨rfl, q.char_ne_blank⟩

theorem ends_rparen (t : Text) : Ends q (')' :: t) := by
  intro c hc
  obtain rfl := Option.some.inj hc
  cases q <;> exact ⟨rfl, by decide⟩

/-- A name followed by a blank. -/
theorem reads_name (n : Text) {t : Text} {a : List Token} {ok : Text → Prop}
    (h : ReadsAs q ok (' ' :: t) a) :
    ReadsAs q ok (delimited q n ++ ' ' :: t) (.quoted n :: a) := by
  have hname := (reads_delimited q n).append h fun t' _ => clear_blank q (t ++ t')
  exact hname

theorem reads_last_word {c : Char} {w : Text} (hw : ∀ d ∈ c :: w, isWordChar d = true) :
    ReadsAs q (Ends q) (' ' :: (c :: w)) [wordToken (c :: w)] := by
  intro t ht
  rw [List.cons_append, lex_blank]
  exact lex_word_append q hw fun d hd => (ht d hd).1

theorem reads_mark (q : Quote) : ReadsAs q (fun _ => True) ['?'] [.mark] := by
  intro t _
  simp

theorem reads_lparen (q : Quote) : ReadsAs q (fun _ => True) ['('] [.lparen] := by
  intro t _
  simp

theorem reads_op (q : Quote) (op : CompOp) :
    ReadsAs q (fun _ => True) (' ' :: (compOpText op ++ [' ', '?'])) [.op op, .mark] := by
  intro t _
  have hop : lexFrom q .gap (compOpText op) = some [.op op] := by
    cases op <;> cases q <;> rfl
  have hrest := lexFrom_append_blank (t := '?' :: t) hop
  rw [lex_mark, Option.map_map] at hrest
  rw [List.cons_append, lex_blank, List.append_assoc]
  exact hrest

theorem reads_markList (q : Quote) {α : Type*} (x : α) (l : List α) :
    ReadsAs q (fun _ => True) ([',', ' '].intercalate ((x :: l).map fun _ => ['?']))
      (markList (x :: l).length) := by
  induction l generalizing x with
  | nil => exact reads_mark q
  | cons y l ih =>
    have htail := ((reads_mark q).append (reads_comma q) fun _ _ => trivial).append (ih y)
      fun _ _ => trivial
    have htext : [',', ' '].intercalate ((x :: y :: l).map fun _ => ['?']) =
        ['?'] ++ [',', ' '] ++ [',', ' '].intercalate ((y :: l).map fun _ => ['?']) := by
      simp [List.intercalate]
    rw [htext]
    exact htail

theorem flatMap_group (a b : List Part) (t : Token) :
    (.operator .lparen :: (a ++ .operator t :: b ++ [.operator .rparen]) : List Part).flatMap
      Part.tokens = [.lparen] ++ a.flatMap Part.tokens ++ [t] ++ b.flatMap Part.tokens ++
        [.rparen] := by
  simp [Part.tokens]

theorem flatMap_atom (a : Atom) : [Part.atom a].flatMap Part.tokens = a.tokens :=
  List.append_nil _

/-- A text is read as the pieces of its tree, in front of whatever may follow it. -/
theorem Renders.reads {p : Predicate K S} {text : Text} (h : Renders q name p text) :
    ReadsAs q (Ends q) text ((p.parts name).flatMap Part.tokens) := by
  have hany {s : Text} {a : List Token} (hs : ReadsAs q (fun _ => True) s a) :
      ReadsAs q (Ends q) s a := fun t _ => hs t trivial
  have hword {c : Char} {w : Text} (hw : (c :: w).all isWordChar = true) :
      ReadsAs q (Ends q) (' ' :: (c :: w)) [wordToken (c :: w)] :=
    reads_last_word (List.all_eq_true.mp hw)
  have hmid {c : Char} {w : Text} (hw : (c :: w).all isWordChar = true) :
      ReadsAs q (fun _ => True) (' ' :: (c :: w ++ [' '])) [wordToken (c :: w)] :=
    reads_keyword q (List.all_eq_true.mp hw)
  have hgroup {l r sep : Text} {a b : List Part} {t : Token}
      (hl : ReadsAs q (Ends q) l (a.flatMap Part.tokens))
      (hr : ReadsAs q (Ends q) r (b.flatMap Part.tokens))
      (hsep : ReadsAs q (fun _ => True) (' ' :: sep) [t]) :
      ReadsAs q (Ends q) (['('] ++ l ++ (' ' :: sep) ++ r ++ [')'])
        ((.operator .lparen :: (a ++ .operator t :: b ++ [.operator .rparen]) : List Part).flatMap
          Part.tokens) := by
    rw [flatMap_group]
    have hopen := (reads_lparen q).append hl fun _ _ => trivial
    have hleft := hopen.append hsep fun t' _ => ends_blank (sep ++ t')
    have hright := hleft.append hr fun _ _ => trivial
    exact hany (hright.append (reads_rparen q) fun t' _ => ends_rparen t')
  induction h with
  | comparison key op v =>
    have hname := reads_name (q := q) (name key) (reads_op q op)
    rw [parts, flatMap_atom, List.append_assoc, List.append_assoc]
    exact hany hname
  | inNone key =>
    have hone : ReadsAs q (fun _ => True) ['1', ' ', '=', ' '] [.word ['1'], .op .eq] := by
      intro t _
      have hdigit := reads_word q (c := '1') (w := []) (by simp [isWordChar])
        ('=' :: ' ' :: t) trivial
      refine hdigit.trans ?_
      simp [Function.comp_def, wordToken]
    have hzero : ReadsAs q (Ends q) ['0'] [.word ['0']] := by
      intro t ht
      exact lex_word_append q (c := '0') (w := []) (by simp [isWordChar]) fun d hd => (ht d hd).1
    rw [parts, flatMap_atom]
    exact hone.append hzero fun _ _ => trivial
  | inList key v vs =>
    have hin := ((hmid (c := 'I') (w := ['N']) (by decide)).append (reads_lparen q) fun _ _ =>
      trivial).append (reads_markList q v vs) fun _ _ => trivial
    have hall := reads_name (q := q) (name key) (hin.append (reads_rparen q) fun _ _ => trivial)
    rw [parts, flatMap_atom, List.append_assoc, List.append_assoc]
    exact hany hall
  | isNull key =>
    have hnull := (hword (c := 'I') (w := ['S']) (by decide)).append
      (hword (c := 'N') (w := ['U', 'L', 'L']) (by decide)) fun _ _ => ends_blank _
    rw [parts, flatMap_atom]
    exact reads_name (name key) hnull
  | isNotNull key =>
    have hnull := ((hword (c := 'I') (w := ['S']) (by decide)).append
      (hword (c := 'N') (w := ['O', 'T']) (by decide)) fun _ _ => ends_blank _).append
      (hword (c := 'N') (w := ['U', 'L', 'L']) (by decide)) fun _ _ => ends_blank _
    rw [parts, flatMap_atom]
    exact reads_name (name key) hnull
  | like key pattern =>
    have hlike := (hmid (c := 'L') (w := ['I', 'K', 'E']) (by decide)).append (reads_mark q)
      fun _ _ => trivial
    rw [parts, flatMap_atom]
    exact hany (reads_name (name key) hlike)
  | conjunction _ _ ihl ihr => exact hgroup ihl ihr (reads_and q)
  | disjunction _ _ ihl ihr => exact hgroup ihl ihr (hmid (c := 'O') (w := ['R']) (by decide))

theorem Renders.regular {p : Predicate K S} {text : Text} (h : Renders q name p text) :
    ∀ part ∈ p.parts name, part.Regular := by
  have hgroup {a b : List Part} {t : Token} (ha : ∀ part ∈ a, part.Regular)
      (hb : ∀ part ∈ b, part.Regular) (ht : t.isOperator = true) :
      ∀ part ∈ (.operator .lparen :: (a ++ .operator t :: b ++ [.operator .rparen]) : List Part),
        part.Regular := by
    intro part hpart
    simp only [List.mem_cons, List.mem_append, List.not_mem_nil, or_false] at hpart
    rcases hpart with rfl | (hpart | rfl | hpart) | rfl
    · exact rfl
    · exact ha part hpart
    · exact ht
    · exact hb part hpart
    · exact rfl
  have hone {a : Atom} (ha : a.Regular) : ∀ part ∈ [Part.atom a], part.Regular := by
    intro part hpart
    obtain rfl := List.mem_singleton.mp hpart
    exact ha
  induction h with
  | inNone => exact hone ⟨rfl, rfl⟩
  | inList _ _ vs => exact hone (Nat.succ_pos vs.length)
  | conjunction _ _ ihl ihr => exact hgroup ihl ihr rfl
  | disjunction _ _ ihl ihr => exact hgroup ihl ihr rfl
  | _ => exact hone trivial

/-- The placeholders of a text are as many as the values of its tree. -/
theorem Renders.marks {p : Predicate K S} {text : Text} (h : Renders q name p text) :
    marks ((p.parts name).flatMap Part.tokens) = p.values.length := by
  have hgroup {a b : List Part} {t : Token} (ht : t ≠ .mark) :
      Sql.marks ((.operator .lparen :: (a ++ .operator t :: b ++ [.operator .rparen]) :
        List Part).flatMap Part.tokens) =
      Sql.marks (a.flatMap Part.tokens) + Sql.marks (b.flatMap Part.tokens) := by
    have hnone : Sql.marks [t] = 0 := List.count_eq_zero.mpr fun hmem =>
      ht (List.mem_singleton.mp hmem).symm
    have hl : Sql.marks [Token.lparen] = 0 := rfl
    have hr : Sql.marks [Token.rparen] = 0 := rfl
    simp only [flatMap_group, marks_append, hnone, hl, hr]
    omega
  induction h with
  | conjunction _ _ ihl ihr =>
    rw [parts_conjunction, hgroup (by decide), ihl, ihr, values_conjunction, List.length_append]
  | disjunction _ _ ihl ihr =>
    rw [parts_disjunction, hgroup (by decide), ihl, ihr, values_disjunction, List.length_append]
  | _ =>
    change Sql.marks ([Part.atom _].flatMap Part.tokens) = _
    rw [flatMap_atom, marks_tokens]
    rfl

def operand : Tree .fact := .cmp (.columnMark (.plain []) .eq)

def tree : Predicate K S → Tree .fact
  | conjunction lhs rhs => .paren (.ofConj (.and (.ofFact lhs.tree) rhs.tree))
  | disjunction lhs rhs => .paren (.or (.ofConj (.ofFact lhs.tree)) (.ofFact rhs.tree))
  | _ => operand

theorem tree_conjunction (lhs rhs : Predicate K S) :
    (conjunction lhs rhs).tree = .paren (.ofConj (.and (.ofFact lhs.tree) rhs.tree)) := rfl

theorem tree_disjunction (lhs rhs : Predicate K S) : (disjunction lhs rhs).tree =
    .paren (.or (.ofConj (.ofFact lhs.tree)) (.ofFact rhs.tree)) := rfl

theorem skeleton_append (a b : List Part) : skeleton (a ++ b) = skeleton a ++ skeleton b :=
  List.flatMap_append

theorem Renders.skeleton {p : Predicate K S} {text : Text} (h : Renders q name p text) :
    skeleton (p.parts name) = p.tree.tokens := by
  have hgroup (a b : List Part) (t : Token) :
      Sql.skeleton (.operator .lparen :: (a ++ .operator t :: b ++ [.operator .rparen])) =
        .lparen :: (Sql.skeleton a ++ t :: Sql.skeleton b ++ [.rparen]) := by
    simp [Sql.skeleton]
  induction h with
  | conjunction _ _ ihl ihr =>
    rw [parts_conjunction, hgroup, ihl, ihr]
    rfl
  | disjunction _ _ ihl ihr =>
    rw [parts_disjunction, hgroup, ihl, ihr]
    rfl
  | _ => rfl

theorem tree_marks (M : Meaning S) (cell : K → S) (p : Predicate K S) :
    p.tree.marks = (p.leaves M cell).length := by
  induction p with
  | conjunction lhs rhs ihl ihr =>
    rw [tree_conjunction, Tree.marks_paren, leaves_conjunction, List.length_append, ← ihl, ← ihr]
    exact Tree.marks_and _ _
  | disjunction lhs rhs ihl ihr =>
    rw [tree_disjunction, Tree.marks_paren, leaves_disjunction, List.length_append, ← ihl, ← ihr]
    exact Tree.marks_or _ _
  | _ => rfl

/-- The tree of the operators has the truth of the predicate. -/
theorem tree_eval (M : Meaning S) (cell : K → S) (p : Predicate K S) :
    p.tree.eval propositional (fun _ => none) (p.leaves M cell) = p.value M cell := by
  induction p with
  | conjunction lhs rhs ihl ihr =>
    have hand := @Tree.eval_and _ propositional (fun _ => none) (.ofFact lhs.tree) rhs.tree
      (lhs.leaves M cell) (rhs.leaves M cell) (tree_marks M cell lhs).symm
    rw [tree_conjunction, leaves_conjunction, value_conjunction, ← ihl, ← ihr]
    exact hand
  | disjunction lhs rhs ihl ihr =>
    have hor := @Tree.eval_or _ propositional (fun _ => none) (.ofConj (.ofFact lhs.tree))
      (.ofFact rhs.tree) (lhs.leaves M cell) (rhs.leaves M cell) (tree_marks M cell lhs).symm
    rw [tree_disjunction, leaves_disjunction, value_disjunction, ← ihl, ← ihr]
    exact hor
  | empty => rfl
  | nullCheck => rfl
  | _ => exact Option.or_none

theorem Renders.truths {p : Predicate K S} {text : Text} (h : Renders q name p text)
    (M : Meaning S) (row : Column → S) :
    truths M row (p.parts name) p.values = p.leaves M fun key => row (.quoted (name key)) := by
  have hgroup {l r : Predicate K S} {lt rt : Text} {t : Token} (hl : Renders q name l lt)
      (hr : Renders q name r rt) :
      Sql.truths M row
        (.operator .lparen :: (l.parts name ++ .operator t :: r.parts name ++ [.operator .rparen]))
        (l.values ++ r.values) =
      Sql.truths M row (l.parts name) l.values ++ Sql.truths M row (r.parts name) r.values := by
    have hright := truths_append M row (r.parts name) [.operator .rparen] [] hr.regular
      hr.marks.symm
    have hleft := truths_append M row (l.parts name)
      (.operator t :: (r.parts name ++ [.operator .rparen])) r.values hl.regular hl.marks.symm
    rw [List.append_nil] at hright
    rw [Sql.truths, List.append_assoc, List.cons_append, hleft, Sql.truths, hright, Sql.truths,
      Sql.truths, List.append_nil]
  induction h with
  | conjunction hl hr ihl ihr =>
    rw [parts_conjunction, values_conjunction, hgroup hl hr, ihl, ihr, leaves_conjunction]
  | disjunction hl hr ihl ihr =>
    rw [parts_disjunction, values_disjunction, hgroup hl hr, ihl, ihr, leaves_disjunction]
  | inList key v vs =>
    have htake : (v :: vs).take (v :: vs).length = v :: vs := List.take_length
    change [M.among _ ((v :: vs).take (v :: vs).length)] = [M.among _ (v :: vs)]
    rw [htake]
  | _ => rfl

/-- The truth of several trees together. -/
def valueOfAll (M : Meaning S) (cell : K → S) (ps : List (Predicate K S)) : Option Bool :=
  ps.foldr (fun p b => and3 (p.value M cell) b) (some true)

def joined (texts : List Text) : Text := [' ', 'A', 'N', 'D', ' '].intercalate texts

theorem joined_cons (t : Text) (ts : List Text) :
    joined (t :: ts) = t ++ ts.flatMap ([' ', 'A', 'N', 'D', ' '] ++ ·) := by
  induction ts generalizing t with
  | nil => simp [joined]
  | cons u ts ih =>
    have hcons : joined (t :: u :: ts) = t ++ ([' ', 'A', 'N', 'D', ' '] ++ joined (u :: ts)) := by
      simp [joined, List.intercalate]
    rw [hcons, ih, List.flatMap_cons, List.append_assoc]

/-- The pieces behind the first tree. -/
def moreParts (name : K → Text) (ps : List (Predicate K S)) : List Part :=
  ps.flatMap fun p => .operator .and :: p.parts name

section
variable {ps : List (Predicate K S)} {ts : List Text}

theorem moreParts_reads (h : List.Forall₂ (Renders q name) ps ts) :
    ReadsAs q (Ends q) (ts.flatMap ([' ', 'A', 'N', 'D', ' '] ++ ·))
      ((moreParts name ps).flatMap Part.tokens) := by
  induction h with
  | nil => exact ReadsAs.nil
  | @cons p t ps ts hp hps ih =>
    have hone := (reads_and q).append hp.reads fun _ _ => trivial
    have hall := hone.append ih fun u hu => by
      cases hps with
      | nil => exact hu
      | cons => exact ends_blank _
    have hparts : (moreParts name (p :: ps)).flatMap Part.tokens =
        [Token.and] ++ (p.parts name).flatMap Part.tokens ++
          (moreParts name ps).flatMap Part.tokens := by
      simp [moreParts, Part.tokens]
    rw [List.flatMap_cons, hparts]
    exact hall

theorem moreParts_regular (h : List.Forall₂ (Renders q name) ps ts) :
    ∀ part ∈ moreParts name ps, part.Regular := by
  induction h with
  | nil => exact fun part hpart => absurd hpart List.not_mem_nil
  | cons hp _ ih =>
    intro part hpart
    rcases List.mem_append.mp hpart with hpart | hpart
    · rcases List.mem_cons.mp hpart with rfl | hpart
      · exact rfl
      · exact hp.regular part hpart
    · exact ih part hpart

theorem moreParts_marks (h : List.Forall₂ (Renders q name) ps ts) :
    marks ((moreParts name ps).flatMap Part.tokens) = (ps.flatMap values).length := by
  induction h with
  | nil => rfl
  | @cons p _ ps _ hp _ ih =>
    have hparts : (moreParts name (p :: ps)).flatMap Part.tokens =
        [Token.and] ++ (p.parts name).flatMap Part.tokens ++
          (moreParts name ps).flatMap Part.tokens := by
      simp [moreParts, Part.tokens]
    have hand : marks [Token.and] = 0 := rfl
    rw [hparts, marks_append, marks_append, hp.marks, ih, hand, List.flatMap_cons,
      List.length_append, Nat.zero_add]

theorem moreParts_truths (h : List.Forall₂ (Renders q name) ps ts) (M : Meaning S)
    (row : Column → S) : Sql.truths M row (moreParts name ps) (ps.flatMap values) =
      ps.flatMap (leaves M fun key => row (.quoted (name key))) := by
  induction h with
  | nil => rfl
  | @cons p _ ps _ hp _ ih =>
    have hsplit := truths_append M row (p.parts name) (moreParts name ps) (ps.flatMap values)
      hp.regular hp.marks.symm
    rw [List.flatMap_cons, List.flatMap_cons, ← hp.truths, ← ih]
    exact hsplit

end

def conjoin (c : Tree .conj) (ps : List (Predicate K S)) : Tree .conj :=
  ps.foldl (fun c p => .and c p.tree) c

theorem and3_true_right (b : Option Bool) : and3 b (some true) = b := by
  rcases b with _ | _ | _ <;> rfl

theorem conjoin_tokens {ps : List (Predicate K S)} {ts : List Text}
    (h : List.Forall₂ (Renders q name) ps ts) (c : Tree .conj) :
    (conjoin c ps).tokens = c.tokens ++ Sql.skeleton (moreParts name ps) := by
  induction h generalizing c with
  | nil => exact (List.append_nil _).symm
  | @cons p _ ps _ hp _ ih =>
    have hparts : Sql.skeleton (moreParts name (p :: ps)) =
        .and :: (Sql.skeleton (p.parts name) ++ Sql.skeleton (moreParts name ps)) := by
      simp [moreParts, Sql.skeleton]
    have hnext := ih (.and c p.tree)
    rw [hparts, hp.skeleton]
    refine hnext.trans ?_
    simp [Tree.tokens]

theorem conjoin_eval (M : Meaning S) (cell : K → S) (ps : List (Predicate K S)) (c : Tree .conj)
    {bs : List (Option Bool)} (hbs : bs.length = c.marks) :
    (conjoin c ps).eval propositional (fun _ => none) (bs ++ ps.flatMap (leaves M cell)) =
      and3 (c.eval propositional (fun _ => none) bs) (valueOfAll M cell ps) := by
  induction ps generalizing c bs with
  | nil =>
    rw [List.flatMap_nil, List.append_nil, valueOfAll, List.foldr_nil, and3_true_right]
    rfl
  | cons p ps ih =>
    have hlen : (bs ++ p.leaves M cell).length = (Tree.and c p.tree).marks := by
      rw [List.length_append, Tree.marks_and, hbs, tree_marks M cell]
    have hnext := ih (.and c p.tree) hlen
    rw [Tree.eval_and hbs, tree_eval, and3_assoc, List.append_assoc] at hnext
    exact hnext

section
variable {p : Predicate K S} {ps : List (Predicate K S)} {t : Text} {ts : List Text}

theorem joined_reads (hp : Renders q name p t) (hps : List.Forall₂ (Renders q name) ps ts) :
    ReadsAs q (Ends q) (joined (t :: ts))
      ((p.parts name ++ moreParts name ps).flatMap Part.tokens) := by
  rw [joined_cons, List.flatMap_append]
  apply hp.reads.append (moreParts_reads hps)
  intro u hu
  cases hps with
  | nil => exact hu
  | cons => exact ends_blank _

theorem joined_lex (hp : Renders q name p t) (hps : List.Forall₂ (Renders q name) ps ts) :
    lex q (joined (t :: ts)) =
      some ((p.parts name ++ moreParts name ps).flatMap Part.tokens) :=
  (joined_reads hp hps).lex_eq fun c hc => by cases hc

theorem joined_marks (hp : Renders q name p t) (hps : List.Forall₂ (Renders q name) ps ts) :
    Sql.marks ((p.parts name ++ moreParts name ps).flatMap Part.tokens) =
      ((p :: ps).flatMap values).length := by
  rw [List.flatMap_append, marks_append, hp.marks, moreParts_marks hps, List.flatMap_cons,
    List.length_append]

/-- The text of chained trees, read with the precedence of SQL and evaluated with its three truth
values, has the truth of the trees together. -/
theorem conditionValue_joined (hp : Renders q name p t)
    (hps : List.Forall₂ (Renders q name) ps ts) (M : Meaning S) (row : Column → S) :
    conditionValue M row q (joined (t :: ts)) ((p :: ps).flatMap values) =
      some (valueOfAll M (fun key => row (.quoted (name key))) (p :: ps)) := by
  have hregular : ∀ part ∈ p.parts name ++ moreParts name ps, part.Regular := by
    intro part hpart
    rcases List.mem_append.mp hpart with hpart | hpart
    · exact hp.regular part hpart
    · exact moreParts_regular hps part hpart
  have htree : parse (Sql.skeleton (p.parts name ++ moreParts name ps)) =
      some (.ofConj (conjoin (.ofFact p.tree) ps)) := by
    rw [parse_iff, skeleton_append, hp.skeleton]
    exact conjoin_tokens hps _
  have htruths : Sql.truths M row (p.parts name ++ moreParts name ps)
      ((p :: ps).flatMap values) = (p.leaves M fun key => row (.quoted (name key))) ++
        ps.flatMap (leaves M fun key => row (.quoted (name key))) := by
    rw [List.flatMap_cons, truths_append M row _ _ _ hp.regular hp.marks.symm, hp.truths,
      moreParts_truths hps]
  have hlen := tree_marks M (fun key => row (.quoted (name key))) p
  have hvalue := conjoin_eval M (fun key => row (.quoted (name key))) ps (.ofFact p.tree)
    hlen.symm
  simp only [conditionValue, joined_lex hp hps, parts_read hregular, htree, htruths,
    Option.bind_eq_bind, Option.bind_some, Except.toOption, Option.pure_def]
  refine congrArg some (hvalue.trans ?_)
  exact congrArg (and3 · _) (tree_eval M _ p)

end

end Predicate

end Uniorm.Builder
