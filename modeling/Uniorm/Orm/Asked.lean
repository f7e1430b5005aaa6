import Uniorm.Orm.Where
import Uniorm.Sql.Prepared

/-! # The typed builders' statements do what is asked

What a query, a count, an update or a remove asks for is said by the members of
the entity: which rows its trees are true for, in which order, which of them and
what is written. The text a server receives for it asks for just that, whatever
the names of the columns and tables are.
-/
namespace Uniorm.Orm

open Foundation Sql Builder Predicate

universe u

section Pieces
variable {q : Quote}

theorem clear_comma (t : Text) : Clear q ([',', ' '] ++ t) := by
  intro c hc
  obtain rfl := Option.some.inj hc
  cases q <;> decide

theorem ends_comma (t : Text) : Ends q ([',', ' '] ++ t) := by
  intro c hc
  obtain rfl := Option.some.inj hc
  cases q <;> exact ⟨rfl, by decide⟩

theorem ends_clear {t : Text} (h : Ends q t) : Clear q t := fun c hc => (h c hc).2

theorem reads_names (names : List Text) :
    ReadsAs q (Clear q) ([',', ' '].intercalate (names.map (delimited q))) (nameTokens names) :=
  ReadsAs.intercalate (reads_comma q) clear_comma fun name _ => reads_delimited q name

theorem reads_asc : ReadsAs q (Ends q) Direction.asc.sql [.word keywordAsc] :=
  reads_last_word (c := 'A') (w := ['S', 'C']) (by simp [isWordChar])

theorem reads_desc : ReadsAs q (Ends q) Direction.desc.sql [.word keywordDesc] :=
  reads_last_word (c := 'D') (w := ['E', 'S', 'C']) (by simp [isWordChar])

def keyOfName (name : Text) (direction : Direction) : Text × Bool :=
  (name, decide (direction = .desc))

theorem reads_key (name : Text) (direction : Direction) :
    ReadsAs q (Ends q) (delimited q name ++ direction.sql) (keyTokens (keyOfName name direction)) := by
  cases direction with
  | asc => exact reads_name name reads_asc
  | desc => exact reads_name name reads_desc

theorem wordToken_numeral (n : ℕ) : wordToken (numeral n) = .word (numeral n) := by
  have hdigit : ∀ c ∈ (numeral n).map Char.toLower, c.isDigit = true := by
    intro c hc
    obtain ⟨d, hd, rfl⟩ := List.mem_map.mp hc
    have hdigit := isDigit_of_mem_numeral hd
    have hsame : d.toLower = d := by
      refine dif_neg fun hupper => ?_
      rw [Char.isDigit, Bool.and_eq_true, decide_eq_true_eq, decide_eq_true_eq] at hdigit
      exact absurd (UInt32.le_trans hupper.1 hdigit.2) (by decide)
    rw [hsame, hdigit]
  have hother : ∀ {c : Char} {w : Text}, c.isDigit = false → (numeral n).map Char.toLower ≠ c :: w := by
    intro c w hc heq
    rw [hdigit c (heq ▸ List.mem_cons_self)] at hc
    cases hc
  rw [wordToken, if_neg (hother rfl), if_neg (hother rfl), if_neg (hother rfl)]

theorem reads_numeral (n : ℕ) : ReadsAs q (Ends q) (' ' :: numeral n) [.word (numeral n)] := by
  obtain ⟨c, w, hcons⟩ := List.exists_cons_of_ne_nil (numeral_ne_nil n)
  have hword : ∀ d ∈ c :: w, isWordChar d = true := by
    intro d hd
    have hdigit := isDigit_of_mem_numeral (hcons ▸ hd : d ∈ numeral n)
    simp [isWordChar, Char.isAlphanum, hdigit]
  have hread := reads_last_word (q := q) hword
  rw [← hcons, wordToken_numeral] at hread
  exact hread

/-- A keyword behind a blank. -/
theorem reads_clauseWord {c : Char} {w : Text} (hw : (c :: w).all isWordChar = true)
    (htoken : wordToken (c :: w) = .word (c :: w)) :
    ReadsAs q (Ends q) (' ' :: (c :: w)) [.word (c :: w)] := by
  rw [← htoken]
  exact reads_last_word (List.all_eq_true.mp hw)

theorem reads_pagination (d : Dialect) (limit : Option ℕ) (offset : ℕ) :
    ReadsAs q (Ends q) (d.pagination limit offset) (pageTokens d.ansiPagination limit offset) := by
  have hblank : ∀ (s t : Text), Ends q t → Ends q (' ' :: s ++ t) := fun s t _ => ends_blank (s ++ t)
  have hoffset := reads_clauseWord (q := q) (c := 'O') (w := ['F', 'F', 'S', 'E', 'T']) rfl rfl
  have hrows := reads_clauseWord (q := q) (c := 'R') (w := ['O', 'W', 'S']) rfl rfl
  have hfetch := reads_clauseWord (q := q) (c := 'F') (w := ['E', 'T', 'C', 'H']) rfl rfl
  have hnext := reads_clauseWord (q := q) (c := 'N') (w := ['E', 'X', 'T']) rfl rfl
  have honly := reads_clauseWord (q := q) (c := 'O') (w := ['N', 'L', 'Y']) rfl rfl
  have hlimit := reads_clauseWord (q := q) (c := 'L') (w := ['I', 'M', 'I', 'T']) rfl rfl
  have hskip := (hoffset.append (reads_numeral offset) (hblank _)).append hrows (hblank _)
  cases hansi : d.ansiPagination with
  | true =>
    cases limit with
    | none =>
      rcases Nat.eq_zero_or_pos offset with rfl | hpos
      · have htext : d.pagination none 0 = [] := if_pos ⟨rfl, rfl⟩
        rw [htext]
        exact ReadsAs.nil
      · have htext : d.pagination none offset = [' ', 'O', 'F', 'F', 'S', 'E', 'T'] ++
            ' ' :: numeral offset ++ [' ', 'R', 'O', 'W', 'S'] := by
          simp [Dialect.pagination, hansi, hpos, Nat.ne_of_gt hpos]
        have htokens : pageTokens true none offset =
            [.word keywordOffset, .word (numeral offset), .word keywordRows] := by
          simp [pageTokens, hpos]
        rw [htext, htokens]
        exact hskip
    | some n =>
      have htext : d.pagination (some n) offset = [' ', 'O', 'F', 'F', 'S', 'E', 'T'] ++
          ' ' :: numeral offset ++ [' ', 'R', 'O', 'W', 'S'] ++ [' ', 'F', 'E', 'T', 'C', 'H'] ++
          [' ', 'N', 'E', 'X', 'T'] ++ ' ' :: numeral n ++ [' ', 'R', 'O', 'W', 'S'] ++
          [' ', 'O', 'N', 'L', 'Y'] := by
        rcases Nat.eq_zero_or_pos offset with rfl | hpos
        · have hzero : numeral 0 = ['0'] := rfl
          simp [Dialect.pagination, hansi, hzero]
        · simp [Dialect.pagination, hansi, hpos]
      rw [htext]
      exact ((((hskip.append hfetch (hblank _)).append hnext (hblank _)).append (reads_numeral n)
        (hblank _)).append hrows (hblank _)).append honly (hblank _)
  | false =>
    have hlimited (n : ℕ) := hlimit.append (reads_numeral n) (hblank _)
    have hend := hoffset.append (reads_numeral offset) (hblank _)
    cases limit with
    | none =>
      rcases Nat.eq_zero_or_pos offset with rfl | hpos
      · have htext : d.pagination none 0 = [] := if_pos ⟨rfl, rfl⟩
        rw [htext]
        exact ReadsAs.nil
      · have htext : d.pagination none offset =
            [' ', 'O', 'F', 'F', 'S', 'E', 'T'] ++ ' ' :: numeral offset := by
          simp [Dialect.pagination, hansi, hpos, Nat.ne_of_gt hpos]
        have htokens : pageTokens false none offset =
            [.word keywordOffset, .word (numeral offset)] := by
          simp [pageTokens, hpos]
        rw [htext, htokens]
        exact hend
    | some n =>
      rcases Nat.eq_zero_or_pos offset with rfl | hpos
      · have htext : d.pagination (some n) 0 =
            [' ', 'L', 'I', 'M', 'I', 'T'] ++ ' ' :: numeral n := by
          simp [Dialect.pagination, hansi]
        rw [htext]
        exact hlimited n
      · have htext : d.pagination (some n) offset = [' ', 'L', 'I', 'M', 'I', 'T'] ++
            ' ' :: numeral n ++ ([' ', 'O', 'F', 'F', 'S', 'E', 'T'] ++ ' ' :: numeral offset) := by
          simp [Dialect.pagination, hansi, hpos]
        have htokens : pageTokens false (some n) offset = [.word keywordLimit, .word (numeral n)] ++
            [.word keywordOffset, .word (numeral offset)] := by
          simp [pageTokens, hpos]
        rw [htext, htokens]
        exact (hlimited n).append hend fun t _ => ends_blank _

theorem pagination_ends (d : Dialect) (limit : Option ℕ) (offset : ℕ) {t : Text} (ht : Ends q t) :
    Ends q (d.pagination limit offset ++ t) := by
  have hcases : d.pagination limit offset = [] ∨ ∃ s, d.pagination limit offset = ' ' :: s := by
    rcases Nat.eq_zero_or_pos offset with rfl | hpos
    · cases hansi : d.ansiPagination <;> cases limit <;> simp [Dialect.pagination, hansi]
    · cases hansi : d.ansiPagination <;> cases limit <;>
        simp [Dialect.pagination, hansi, hpos, Nat.ne_of_gt hpos]
  rcases hcases with h | ⟨s, h⟩
  · rw [h]
    exact ht
  · rw [h]
    exact ends_blank _

end Pieces

section Conditions
variable {K : Type u} {S : Type} {q : Quote} {name : K → Text}

theorem endsCondition_markList (n : ℕ) : ∀ t ∈ markList n, endsCondition t = false := by
  induction n with
  | zero => exact fun _ ht => absurd ht List.not_mem_nil
  | succ n ih =>
    cases n with
    | zero =>
      intro t ht
      obtain rfl := List.mem_singleton.mp ht
      rfl
    | succ n =>
      intro t ht
      rcases List.mem_cons.mp ht with rfl | ht
      · rfl
      · rcases List.mem_cons.mp ht with rfl | ht
        · rfl
        · exact ih t ht

/-- No piece of a tree's text reads like a clause behind the condition. -/
theorem endsCondition_parts (p : Predicate K S) :
    ∀ t ∈ (p.parts name).flatMap Part.tokens, endsCondition t = false := by
  have hgroup {l r : List Part} {o : Token} (ho : endsCondition o = false)
      (hl : ∀ t ∈ l.flatMap Part.tokens, endsCondition t = false)
      (hr : ∀ t ∈ r.flatMap Part.tokens, endsCondition t = false) :
      ∀ t ∈ (Part.operator .lparen :: (l ++ .operator o :: r ++ [.operator .rparen])).flatMap
        Part.tokens, endsCondition t = false := by
    rw [flatMap_group]
    intro t ht
    simp only [List.mem_cons, List.mem_append, List.not_mem_nil, or_false] at ht
    rcases ht with (((rfl | ht) | rfl) | ht) | rfl
    · rfl
    · exact hl t ht
    · exact ho
    · exact hr t ht
    · rfl
  induction p with
  | empty => exact fun _ ht => absurd ht List.not_mem_nil
  | comparison key op v =>
    rw [Predicate.parts, flatMap_atom]
    simp [Atom.tokens, Column.token, endsCondition]
  | inList key values =>
    rw [Predicate.parts, flatMap_atom]
    split_ifs
    · simp only [Atom.tokens, List.mem_cons, List.not_mem_nil, or_false]
      rintro t (rfl | rfl | rfl) <;> rfl
    · simp only [Atom.tokens, List.mem_cons, List.mem_append, List.not_mem_nil, or_false]
      rintro t (rfl | rfl | rfl | ht | rfl)
      · rfl
      · rfl
      · rfl
      · exact endsCondition_markList _ t ht
      · rfl
  | nullCheck key negated =>
    rw [Predicate.parts, flatMap_atom]
    cases negated <;> simp only [Atom.tokens, List.mem_cons, List.not_mem_nil, or_false]
    · rintro t (rfl | rfl | rfl) <;> rfl
    · rintro t (rfl | rfl | rfl | rfl) <;> rfl
  | like key pattern =>
    rw [Predicate.parts, flatMap_atom]
    simp only [Atom.tokens, List.mem_cons, List.not_mem_nil, or_false]
    rintro t (rfl | rfl | rfl) <;> rfl
  | conjunction lhs rhs ihl ihr =>
    rw [parts_conjunction]
    exact hgroup rfl ihl ihr
  | disjunction lhs rhs ihl ihr =>
    rw [parts_disjunction]
    exact hgroup rfl ihl ihr

theorem endsCondition_moreParts (ps : List (Predicate K S)) :
    ∀ t ∈ (moreParts name ps).flatMap Part.tokens, endsCondition t = false := by
  induction ps with
  | nil => exact fun _ ht => absurd ht List.not_mem_nil
  | cons p ps ih =>
    have hcons : (moreParts name (p :: ps)).flatMap Part.tokens = .and ::
        ((p.parts name).flatMap Part.tokens ++ (moreParts name ps).flatMap Part.tokens) := by
      simp [moreParts, Part.tokens]
    rw [hcons]
    intro t ht
    rcases List.mem_cons.mp ht with rfl | ht
    · rfl
    · exact (List.mem_append.mp ht).elim (endsCondition_parts p t) (ih t)

structure ReadsTrees (q : Quote) (name : K → Text) (ps : List (Predicate K S)) (text : Text)
    (ts : List Token) (c : Condition) : Prop where
  reads : ReadsAs q (Ends q) text ts
  read : readCondition ts = some c
  inside : ∀ t ∈ ts, endsCondition t = false
  marks : marks ts = (ps.flatMap values).length
  value : ∀ (M : Meaning S) (row : Row S), c.value M (ps.flatMap values) row =
    valueOfAll M (fun key => row (.quoted (name key))) ps

theorem exists_readsTrees {ps : List (Predicate K S)} {texts : List Text}
    (h : List.Forall₂ (Renders q name) ps texts) (hne : ps ≠ []) :
    ∃ ts c, ReadsTrees q name ps (joined texts) ts c := by
  cases h with
  | nil => exact absurd rfl hne
  | @cons p t ps texts hp hps =>
    have hregular : ∀ part ∈ p.parts name ++ moreParts name ps, part.Regular := by
      intro part hpart
      exact (List.mem_append.mp hpart).elim (hp.regular part) (moreParts_regular hps part)
    have htree : parse (Sql.skeleton (p.parts name ++ moreParts name ps)) =
        some (.ofConj (conjoin (.ofFact p.tree) ps)) := by
      rw [parse_iff, skeleton_append, hp.skeleton]
      exact conjoin_tokens hps _
    have hread : readCondition ((p.parts name ++ moreParts name ps).flatMap Part.tokens) =
        some ⟨p.parts name ++ moreParts name ps, .ofConj (conjoin (.ofFact p.tree) ps)⟩ := by
      simp only [readCondition, parts_read hregular, htree, Except.toOption, Option.bind_eq_bind,
        Option.bind_some, Option.pure_def]
    refine ⟨_, _, joined_reads hp hps, hread, ?_, joined_marks hp hps, fun M row => ?_⟩
    · rw [List.flatMap_append]
      intro t ht
      exact (List.mem_append.mp ht).elim (endsCondition_parts p t) (endsCondition_moreParts ps t)
    · have hvalue := conditionValue_joined hp hps M row
      simp only [conditionValue, joined_lex hp hps, parts_read hregular, htree, Option.bind_eq_bind,
        Option.bind_some, Except.toOption, Option.pure_def] at hvalue
      exact Option.some.inj hvalue

end Conditions

section Asked
variable {R : Type u} {V K : Type} {E : Type*} [DecidableEq K] {m : EntityMeta R V}

/-- The names a table is reached by: its own, or one of its resolution behind the qualifier that the
dialect writes. -/
def EntityMeta.tablePath (m : EntityMeta R V) (d : Dialect) : List Text :=
  match m.resolved with
  | none => [d.foldIdentifier m.table]
  | some r =>
    let qualifier := if d.tableQualification = .catalog then r.catalog else r.schema
    if qualifier = [] then [r.name] else [qualifier, r.name]

def assignedNames (name : K → Text) (sets : List (K × Option V)) : List Text :=
  sets.map fun assignment => name assignment.1

/-- What a typed statement asks of the rows of its table. Members are looked up in a row by the names
of their columns; of trees, those are true whose truth is true. -/
def CoreStatement.Asks (keyOf : m.Index → K) (d : Dialect) (srv : Server (Option V))
    (db : List Text → List (Row (Option V))) :
    CoreStatement K m → Outcome (Option V) → Prop
  | .select shape lim, .rows out => ∃ kept,
    Answers (fun row => valueOfAll srv.meaning (cell row) shape.wheres == some true)
      (fun a b => Ordered srv.le (shape.orders.map fun o => (o.1, decide (o.2 = .desc))) (cell a)
        (cell b)) lim shape.offset (db (m.tablePath d)) kept ∧
    out = kept.map fun row => m.allColumns.map fun i => row (.quoted (m.spelled d i))
  | .count shape, .count n => n = ((db (m.tablePath d)).filter fun row =>
      valueOfAll srv.meaning (cell row) shape.wheres == some true).length
  | .update sets wheres, .table rows affected =>
    let selected := fun row => valueOfAll srv.meaning (cell row) wheres == some true
    let names := assignedNames (m.nameOf keyOf d) sets
    names.Nodup ∧ affected = ((db (m.tablePath d)).filter selected).length ∧
      rows = (db (m.tablePath d)).map fun row =>
        if selected row then writeRow names (sets.map Prod.snd) row else row
  | .remove wheres, .table rows affected =>
    let selected := fun row => valueOfAll srv.meaning (cell row) wheres == some true
    affected = ((db (m.tablePath d)).filter selected).length ∧
      rows = (db (m.tablePath d)).filter fun row => !selected row
  | _, _ => False
where
  cell (row : Row (Option V)) (key : K) : Option V := row (.quoted (m.nameOf keyOf d key))

/-- Where an OFFSET stands behind a LIMIT only, no rows are skipped without one. -/
def CoreStatement.Paged (d : Dialect) : CoreStatement K m → Prop
  | .select shape lim => d.ansiPagination = true ∨ lim ≠ none ∨ shape.offset = 0
  | _ => True

def CoreStatement.Named : CoreStatement K m → Prop
  | .select _ _ => m.allColumns ≠ []
  | _ => True

section Table
variable {d : Dialect} {q : Quote}

theorem tablePath_ne_nil : m.tablePath d ≠ [] := by
  rw [EntityMeta.tablePath]
  split
  · exact List.cons_ne_nil _ _
  · dsimp only
    split_ifs <;> exact List.cons_ne_nil _ _

theorem length_tablePath : (m.tablePath d).length ≤ 2 := by
  rw [EntityMeta.tablePath]
  split
  · exact Nat.le_succ 1
  · dsimp only
    split_ifs
    all_goals first | exact le_rfl | exact Nat.le_succ 1

theorem qualified_tokens (hq : d.UsesQuote q) {qualifier name text : Text}
    (h : (EntityMeta.tableSql.qualified d qualifier name : Except (WriteError E) Text) = .ok text) :
    ReadsAs q (Clear q) text
      (tableTokens (if qualifier = [] then [name] else [qualifier, name])) := by
  rw [EntityMeta.tableSql.qualified] at h
  by_cases hempty : qualifier = []
  · rw [if_pos hempty, pure_bind] at h
    obtain ⟨last, hlast, hall⟩ := bind_eq_ok.mp h
    obtain rfl := Except.ok.inj hall
    rw [if_pos hempty, List.nil_append, quoteExactIdentifier_eq hq (quoted_ok hlast)]
    exact reads_delimited q name
  · rw [if_neg hempty, map_eq_pure_bind] at h
    obtain ⟨head, hhead, hmore⟩ := bind_eq_ok.mp h
    obtain ⟨first, hfirst, hdotted⟩ := bind_eq_ok.mp hhead
    obtain rfl := Except.ok.inj hdotted
    obtain ⟨last, hlast, hall⟩ := bind_eq_ok.mp hmore
    obtain rfl := Except.ok.inj hall
    have hstart : ∀ t, Clear q t → ∃ t', delimited q name ++ t = q.char :: t' := fun t _ => ⟨_, rfl⟩
    rw [if_neg hempty, quoteExactIdentifier_eq hq (quoted_ok hlast),
      quoteExactIdentifier_eq hq (quoted_ok hfirst)]
    refine ((reads_delimited q qualifier).append (reads_dot q) ?_).append (reads_delimited q name)
      hstart
    rintro _ ⟨t, rfl⟩ c hc
    obtain rfl := Option.some.inj hc
    cases q <;> decide

theorem tableSql_tokens (hq : d.UsesQuote q) {text : Text}
    (h : (m.tableSql d : Except (WriteError E) Text) = .ok text) :
    ReadsAs q (Clear q) text (tableTokens (m.tablePath d)) := by
  rw [EntityMeta.tableSql] at h
  rw [EntityMeta.tablePath]
  cases hres : m.resolved with
  | none =>
    simp only [hres] at h
    rw [quoteExactIdentifier_eq hq (quoted_ok h)]
    exact reads_delimited q _
  | some r =>
    cases hqual : d.tableQualification with
    | unsupported =>
      simp only [hres, hqual] at h
      cases h
    | schema =>
      simp only [hres, hqual] at h
      exact qualified_tokens hq h
    | catalog =>
      simp only [hres, hqual] at h
      exact qualified_tokens hq h

end Table

section Texts
variable {keyOf : m.Index → K} {d : Dialect} {q : Quote} {wheres : List (Predicate K (Option V))}

/-- A WHERE that is there if there are trees. -/
theorem optionalWhere_reads (hq : d.UsesQuote q) {r : Text × List (Option V)}
    (h : (m.optionalWhere keyOf d wheres : Except (QueryError E) _) = .ok r) :
    ∃ ts c, ReadsAs q (Ends q) r.1 ts ∧ (∀ t, Ends q t → Ends q (r.1 ++ t)) ∧ WhereTokens c ts ∧
      marks ts = r.2.length ∧ ∀ (M : Meaning (Option V)) (row : Row (Option V)),
        selects c M r.2 row =
          (valueOfAll M (fun key => row (.quoted (m.nameOf keyOf d key))) wheres == some true) := by
  by_cases hne : wheres = []
  · rw [EntityMeta.optionalWhere, if_pos (by simpa using hne)] at h
    obtain rfl := Except.ok.inj h
    subst hne
    exact ⟨[], none, .nil, fun _ ht => ht, .missing, rfl, fun _ _ => rfl⟩
  · obtain ⟨w, hw, rfl⟩ := optionalWhere_eq hne h
    obtain ⟨texts, hall, rfl⟩ := whereSql_renders hq hw
    obtain ⟨ts, c, htrees⟩ := exists_readsTrees hall hne
    have hkeyword := reads_keyword q (c := 'W') (w := ['H', 'E', 'R', 'E']) (by simp [isWordChar])
    refine ⟨.word keywordWhere :: ts, some c, hkeyword.append htrees.reads fun _ _ => trivial,
      fun t _ => ends_blank _, .given htrees.read htrees.inside, ?_, fun M row => ?_⟩
    · have hcons : marks (.word keywordWhere :: ts) = marks ts := List.count_cons_of_ne (by simp)
      rw [hcons, htrees.marks]
    · rw [← htrees.value M row]
      rfl

theorem ordersSql_reads (hq : d.UsesQuote q) {orders : List (K × Direction)} {text : Text}
    (h : (m.ordersSql keyOf d orders : Except (QueryError E) Text) = .ok text) :
    ReadsAs q (Ends q) text
        (orderTokens (orders.map fun o => keyOfName (m.nameOf keyOf d o.1) o.2)) ∧
      ∀ t, Ends q t → Ends q (text ++ t) := by
  rw [EntityMeta.ordersSql] at h
  by_cases hne : orders = []
  · rw [if_pos (by simpa using hne)] at h
    obtain rfl := Except.ok.inj h
    subst hne
    exact ⟨.nil, fun _ ht => ht⟩
  · rw [if_neg (by simpa using hne)] at h
    obtain ⟨texts, htexts, hpure⟩ := bind_eq_ok.mp h
    obtain rfl := Except.ok.inj hpure
    have htexts : texts = orders.map fun o => delimited q (m.nameOf keyOf d o.1) ++ o.2.sql := by
      refine eq_map_of_forall₂ ((forall₂_of_mapM htexts).imp fun o text ho => ?_)
      obtain ⟨column, hcolumn, rfl⟩ := map_eq_ok.mp ho
      rw [columnSqlOf_resolves hq o.1 column hcolumn]
    have hkeys : ReadsAs q (Ends q)
        ([',', ' '].intercalate (orders.map fun o => delimited q (m.nameOf keyOf d o.1) ++ o.2.sql))
        ([Token.comma].intercalate
          (orders.map fun o => keyTokens (keyOfName (m.nameOf keyOf d o.1) o.2))) :=
      ReadsAs.intercalate (reads_comma q) ends_comma fun o _ => reads_key _ o.2
    have horder := reads_keyword q (c := 'O') (w := ['R', 'D', 'E', 'R']) (by simp [isWordChar])
    have hby := reads_word q (c := 'B') (w := ['Y']) (by simp [isWordChar])
    have htokens : orderTokens (orders.map fun o => keyOfName (m.nameOf keyOf d o.1) o.2) =
        [.word keywordOrder] ++ ([.word keywordBy] ++ [Token.comma].intercalate
          (orders.map fun o => keyTokens (keyOfName (m.nameOf keyOf d o.1) o.2))) := by
      rw [orderTokens, if_neg (by simpa using hne), List.map_map]
      rfl
    rw [htexts, htokens]
    exact ⟨horder.append (hby.append hkeys fun _ _ => trivial) fun _ _ => trivial,
      fun t _ => ends_blank _⟩

/-- The names that several columns of a mapping are rendered with. -/
theorem columns_text (hq : d.UsesQuote q) {texts : List Text}
    (h : (m.allColumns.mapM fun i => (m.columnSql d i).mapError QueryError.entity :
      Except (QueryError E) (List Text)) = .ok texts) :
    texts = (m.allColumns.map (m.spelled d)).map (delimited q) := by
  rw [List.map_map]
  exact eq_map_of_forall₂ ((forall₂_of_mapM h).imp fun i _ hi =>
    columnSql_eq hq (mapError_eq_ok.mp hi))

theorem setSql_texts (hq : d.UsesQuote q) {sets : List (K × Option V)} {texts : List Text}
    (h : (sets.mapM (m.setSql keyOf d) : Except (QueryError E) (List Text)) = .ok texts) :
    texts = (assignedNames (m.nameOf keyOf d) sets).map fun name =>
      delimited q name ++ [' ', '=', ' ', '?'] := by
  rw [assignedNames, List.map_map]
  refine eq_map_of_forall₂ ((forall₂_of_mapM h).imp fun o text ho => ?_)
  obtain ⟨column, hcolumn, rfl⟩ := map_eq_ok.mp ho
  rw [columnSqlOf_resolves hq o.1 column hcolumn]
  rfl

theorem not_countHead (names : List Text) (t : Text) : countHead.isPrefixOf
    (['S', 'E', 'L', 'E', 'C', 'T', ' '] ++ [',', ' '].intercalate (names.map (delimited q)) ++
      [' ', 'F', 'R', 'O', 'M', ' '] ++ t) = false := by
  have hhead : ∀ (c : Char) (s : Text), c ≠ 'C' → countHead.isPrefixOf
      ('S' :: 'E' :: 'L' :: 'E' :: 'C' :: 'T' :: ' ' :: c :: s) = false := by
    intro c s hc
    have hne : ('C' == c) = false := beq_eq_false_iff_ne.mpr hc.symm
    simp [countHead, List.isPrefixOf, hne]
  cases names with
  | nil => exact hhead ' ' _ (by decide)
  | cons name names =>
    have hquote : q.char ≠ 'C' := by cases q <;> decide
    cases names with
    | nil => exact hhead q.char _ hquote
    | cons next names => exact hhead q.char _ hquote

end Texts

section Marks

theorem marks_intercalate_comma (l : List (List Token)) :
    marks ([Token.comma].intercalate l) = (l.map marks).sum := by
  induction l with
  | nil => rfl
  | cons a l ih =>
    cases l with
    | nil => simp
    | cons b l =>
      have hcomma : marks [Token.comma] = 0 := rfl
      rw [List.intercalate_cons_cons, List.append_assoc, marks_append, marks_append, ih, hcomma]
      simp only [List.map_cons, List.sum_cons, Nat.zero_add]

theorem marks_nameTokens (names : List Text) : marks (nameTokens names) = 0 := by
  rw [nameTokens, marks_intercalate_comma, List.map_map]
  exact List.sum_eq_zero fun n hn => by
    obtain ⟨name, -, rfl⟩ := List.mem_map.mp hn
    rfl

theorem marks_tableTokens (table : List Text) : marks (tableTokens table) = 0 := by
  obtain _ | ⟨name, _ | ⟨next, more⟩⟩ := table <;> rfl

theorem marks_orderTokens (orders : List (Text × Bool)) : marks (orderTokens orders) = 0 := by
  rw [orderTokens]
  split_ifs
  · rfl
  · have hkeys : marks ([Token.comma].intercalate (orders.map keyTokens)) = 0 := by
      rw [marks_intercalate_comma, List.map_map]
      exact List.sum_eq_zero fun n hn => by
        obtain ⟨key, -, rfl⟩ := List.mem_map.mp hn
        rfl
    exact hkeys

theorem marks_pageTokens (ansi : Bool) (limit : Option ℕ) (offset : ℕ) :
    marks (pageTokens ansi limit offset) = 0 := by
  rcases Nat.eq_zero_or_pos offset with rfl | hoffset
  · cases ansi <;> cases limit <;> simp [pageTokens, marks]
  · cases ansi <;> cases limit <;> simp [pageTokens, marks, hoffset]

theorem marks_word (w : Text) (ts : List Token) : marks (.word w :: ts) = marks ts :=
  List.count_cons_of_ne (by simp)

theorem marks_assigned (names : List Text) :
    marks ([Token.comma].intercalate (names.map columnMark)) = names.length := by
  rw [marks_intercalate_comma, List.map_map]
  have hone : (marks ∘ columnMark) = fun _ => 1 := rfl
  rw [hone]
  simp

end Marks

/-- The text asks a server for what is asked. -/
def Faithful (q : Quote) (keyOf : m.Index → K) (d : Dialect) (s : CoreStatement K m)
    (r : Text × List (Option V)) : Prop :=
  ∃ p, prepare q d.ansiPagination r.1 = some p ∧ p.marks = r.2.length ∧
    ∀ (srv : Server (Option V)) (db : List Text → List (Row (Option V)))
      (out : Outcome (Option V)), p.statement.Runs srv db r.2 out ↔ s.Asks keyOf d srv db out

section Statements
variable {keyOf : m.Index → K} {d : Dialect} {q : Quote} {r : Text × List (Option V)}

theorem prepare_select {shape : QueryShape K V} {lim : Option ℕ} (hq : d.UsesQuote q)
    (h : (m.renderSelect keyOf d shape lim : Except (QueryError E) _) = .ok r) :
    ∃ c, (∀ (M : Meaning (Option V)) (row : Row (Option V)), selects c M r.2 row =
        (valueOfAll M (fun key => row (.quoted (m.nameOf keyOf d key))) shape.wheres == some true)) ∧
      prepare q d.ansiPagination r.1 =
        if m.allColumns ≠ [] ∧ (d.ansiPagination = true ∨ lim ≠ none ∨ shape.offset = 0) then
          some ⟨.select (m.allColumns.map (m.spelled d)) (m.tablePath d) c
            (shape.orders.map fun o => keyOfName (m.nameOf keyOf d o.1) o.2) lim shape.offset,
            r.2.length⟩
        else none := by
  obtain ⟨columns, hcolumns, h⟩ := bind_eq_ok.mp h
  obtain ⟨table, htable, h⟩ := bind_eq_ok.mp h
  obtain ⟨condition, hcondition, h⟩ := bind_eq_ok.mp h
  obtain ⟨orders, horders, h⟩ := bind_eq_ok.mp h
  obtain rfl := Except.ok.inj h
  obtain ⟨ts, c, hts, htsEnds, hwhere, hmarks, hvalue⟩ := optionalWhere_reads hq hcondition
  obtain ⟨hordersRead, hordersEnds⟩ := ordersSql_reads hq horders
  obtain rfl := columns_text hq hcolumns
  have hselect : ReadsAs q (fun _ => True) ['S', 'E', 'L', 'E', 'C', 'T', ' ']
      [.word keywordSelect] :=
    reads_word q (c := 'S') (w := ['E', 'L', 'E', 'C', 'T']) (by simp [isWordChar])
  have hfrom : ReadsAs q (fun _ => True) [' ', 'F', 'R', 'O', 'M', ' '] [.word keywordFrom] :=
    reads_keyword q (c := 'F') (w := ['R', 'O', 'M']) (by simp [isWordChar])
  have hall := (((((hselect.append (reads_names (m.allColumns.map (m.spelled d)))
    fun _ _ => trivial).append hfrom fun t _ => clear_blank q _).append
      (tableSql_tokens hq (mapError_eq_ok.mp htable)) fun _ _ => trivial).append hts
        fun t ht => ends_clear (htsEnds t ht)).append hordersRead hordersEnds).append
          (reads_pagination d lim shape.offset) fun t ht => pagination_ends d lim shape.offset ht
  have hlex := hall.lex_eq fun _ ht => absurd ht (Option.not_mem_none _)
  have hcount := not_countHead (q := q) (m.allColumns.map (m.spelled d))
    (table ++ (condition.1 ++ (orders ++ d.pagination lim shape.offset)))
  have hread := read_select d.ansiPagination (m.allColumns.map (m.spelled d))
    (tablePath_ne_nil (m := m) (d := d)) length_tablePath hwhere
    (shape.orders.map fun o => keyOfName (m.nameOf keyOf d o.1) o.2) lim shape.offset
  refine ⟨c, hvalue, ?_⟩
  simp only [List.append_assoc] at hlex hcount
  simp only [List.append_assoc]
  rw [prepare, hcount, if_neg Bool.false_ne_true, hlex, Option.bind_some]
  simp only [marks_append, marks_word, marks_nil, marks_nameTokens, marks_tableTokens, hmarks,
    marks_orderTokens, marks_pageTokens, Nat.zero_add, Nat.add_zero]
  simp only [ne_eq, List.map_eq_nil_iff] at hread
  refine (congrArg (Option.map _) hread).trans ?_
  split_ifs <;> rfl

theorem faithful_select {shape : QueryShape K V} {lim : Option ℕ} (hq : d.UsesQuote q)
    (hnamed : (CoreStatement.select shape lim : CoreStatement K m).Named)
    (hpaged : (CoreStatement.select shape lim : CoreStatement K m).Paged d)
    (h : (m.renderSelect keyOf d shape lim : Except (QueryError E) _) = .ok r) :
    Faithful q keyOf d (.select shape lim) r := by
  obtain ⟨c, hvalue, hprepare⟩ := prepare_select hq h
  have hread : d.ansiPagination = true ∨ lim ≠ none ∨ shape.offset = 0 := hpaged
  rw [if_pos ⟨hnamed, hread⟩] at hprepare
  refine ⟨_, hprepare, rfl, fun srv db out => ?_⟩
  cases out with
  | rows out =>
    have hholds : selects c srv.meaning r.2 = fun row =>
        valueOfAll srv.meaning (CoreStatement.Asks.cell keyOf d row) shape.wheres == some true :=
      funext fun row => hvalue srv.meaning row
    have horder : (fun a b : Row (Option V) => Ordered srv.le
        (shape.orders.map fun o => keyOfName (m.nameOf keyOf d o.1) o.2)
        (fun name => a (.quoted name)) fun name => b (.quoted name)) = fun a b =>
          Ordered srv.le (shape.orders.map fun o => (o.1, decide (o.2 = .desc)))
            (CoreStatement.Asks.cell keyOf d a) (CoreStatement.Asks.cell keyOf d b) := by
      funext a b
      have hmap := ordered_map srv.le (m.nameOf keyOf d)
        (shape.orders.map fun o => (o.1, decide (o.2 = .desc))) (fun name => a (.quoted name))
        fun name => b (.quoted name)
      rw [List.map_map] at hmap
      exact propext hmap
    simp only [Statement.Runs, CoreStatement.Asks, hholds, horder, List.map_map]
    rfl
  | count n => exact Iff.rfl
  | table rows affected => exact Iff.rfl

theorem faithful_count {shape : QueryShape K V} (hq : d.UsesQuote q)
    (h : (m.renderCount keyOf d shape : Except (QueryError E) _) = .ok r) :
    Faithful q keyOf d (.count shape) r := by
  obtain ⟨table, htable, h⟩ := bind_eq_ok.mp h
  obtain ⟨condition, hcondition, h⟩ := bind_eq_ok.mp h
  obtain rfl := Except.ok.inj h
  obtain ⟨ts, c, hts, htsEnds, hwhere, hmarks, hvalue⟩ := optionalWhere_reads hq hcondition
  have hall := (tableSql_tokens hq (mapError_eq_ok.mp htable)).append hts
    fun t ht => ends_clear (htsEnds t ht)
  have hlex := hall.lex_eq fun _ ht => absurd ht (Option.not_mem_none _)
  have hprepare : prepare q d.ansiPagination (countHead ++ (table ++ condition.1)) =
      some ⟨.count (m.tablePath d) c, condition.2.length⟩ := by
    have hcount : countHead.isPrefixOf (countHead ++ (table ++ condition.1)) = true :=
      List.isPrefixOf_iff_prefix.mpr (List.prefix_append _ _)
    rw [prepare, hcount, if_pos rfl, List.drop_left, hlex, Option.bind_some,
      read_count tablePath_ne_nil length_tablePath hwhere, Option.map_some, marks_append,
      marks_tableTokens, hmarks, Nat.zero_add]
  refine ⟨_, (congrArg (prepare q d.ansiPagination) (List.append_assoc _ _ _)).trans hprepare, rfl,
    fun srv db out => ?_⟩
  cases out with
  | rows out => exact Iff.rfl
  | count n =>
    have hholds : selects c srv.meaning condition.2 = fun row =>
        valueOfAll srv.meaning (CoreStatement.Asks.cell keyOf d row) shape.wheres == some true :=
      funext fun row => hvalue srv.meaning row
    simp only [Statement.Runs, CoreStatement.Asks, hholds]
  | table rows affected => exact Iff.rfl

/-- The condition of an update or a remove. -/
theorem whereSql_reads (hq : d.UsesQuote q) {wheres : List (Predicate K (Option V))}
    (hne : wheres ≠ []) (h : (m.whereSql keyOf d wheres : Except (QueryError E) _) = .ok r) :
    ∃ ts c, ReadsTrees q (m.nameOf keyOf d) wheres r.1 ts c ∧ r.2 = wheres.flatMap values := by
  obtain ⟨texts, hall, rfl⟩ := whereSql_renders hq h
  obtain ⟨ts, c, htrees⟩ := exists_readsTrees hall hne
  exact ⟨ts, c, htrees, rfl⟩

theorem faithful_remove {wheres : List (Predicate K (Option V))} (hq : d.UsesQuote q)
    (h : (m.typedRemove keyOf d wheres : Except (QueryError E) _) = .ok r) :
    Faithful q keyOf d (.remove wheres) r := by
  rw [EntityMeta.typedRemove] at h
  split_ifs at h with hne
  obtain ⟨condition, hcondition, h⟩ := bind_eq_ok.mp h
  obtain ⟨table, htable, h⟩ := bind_eq_ok.mp h
  obtain rfl := Except.ok.inj h
  obtain ⟨ts, c, htrees, hvalues⟩ := whereSql_reads hq (by simpa using hne) hcondition
  have hdelete : ReadsAs q (fun _ => True) ['D', 'E', 'L', 'E', 'T', 'E', ' ', 'F', 'R', 'O', 'M', ' ']
      [.word keywordDelete, .word keywordFrom] :=
    (reads_word q (c := 'D') (w := ['E', 'L', 'E', 'T', 'E']) (by simp [isWordChar])).append
      (reads_word q (c := 'F') (w := ['R', 'O', 'M']) (by simp [isWordChar])) fun _ _ => trivial
  have hwhere : ReadsAs q (fun _ => True) wherePrefix [.word keywordWhere] :=
    reads_keyword q (c := 'W') (w := ['H', 'E', 'R', 'E']) (by simp [isWordChar])
  have hall := ((hdelete.append (tableSql_tokens hq (mapError_eq_ok.mp htable))
    fun _ _ => trivial).append hwhere fun t _ => clear_blank q _).append htrees.reads
      fun _ _ => trivial
  have hlex := hall.lex_eq fun _ ht => absurd ht (Option.not_mem_none _)
  have hread := read_delete d.ansiPagination (tablePath_ne_nil (m := m) (d := d)) length_tablePath
    htrees.read htrees.inside
  have hmarks : marks ts = condition.2.length := by rw [htrees.marks, hvalues]
  have hprepare : prepare q d.ansiPagination (['D', 'E', 'L', 'E', 'T', 'E', ' ', 'F', 'R', 'O', 'M',
      ' '] ++ table ++ wherePrefix ++ condition.1) =
      some ⟨.delete (m.tablePath d) c, condition.2.length⟩ := by
    have hcount : countHead.isPrefixOf (['D', 'E', 'L', 'E', 'T', 'E', ' ', 'F', 'R', 'O', 'M', ' '] ++
        table ++ wherePrefix ++ condition.1) = false := rfl
    rw [prepare, hcount, if_neg Bool.false_ne_true, hlex, Option.bind_some]
    simp only [List.append_assoc, marks_append, marks_word, marks_nil, marks_tableTokens, hmarks,
      Nat.zero_add]
    exact congrArg (Option.map _) hread
  refine ⟨_, hprepare, rfl, fun srv db out => ?_⟩
  cases out with
  | rows out => exact Iff.rfl
  | count n => exact Iff.rfl
  | table rows affected =>
    have hholds : c.selects srv.meaning condition.2 = fun row =>
        valueOfAll srv.meaning (CoreStatement.Asks.cell keyOf d row) wheres == some true := by
      funext row
      rw [hvalues, Condition.selects, htrees.value]
      rfl
    simp only [Statement.Runs, CoreStatement.Asks, hholds]

theorem faithful_update {sets : List (K × Option V)} {wheres : List (Predicate K (Option V))}
    (hq : d.UsesQuote q)
    (h : (m.typedUpdate keyOf d sets wheres : Except (QueryError E) _) = .ok r) :
    Faithful q keyOf d (.update sets wheres) r := by
  rw [EntityMeta.typedUpdate] at h
  split_ifs at h with hsets hne
  obtain ⟨table, htable, h⟩ := bind_eq_ok.mp h
  obtain ⟨parts, hparts, h⟩ := bind_eq_ok.mp h
  obtain ⟨condition, hcondition, h⟩ := bind_eq_ok.mp h
  obtain rfl := Except.ok.inj h
  obtain rfl := setSql_texts hq hparts
  obtain ⟨ts, c, htrees, hvalues⟩ := whereSql_reads hq (by simpa using hne) hcondition
  have hnames : assignedNames (m.nameOf keyOf d) sets ≠ [] := by
    simpa [assignedNames] using hsets
  have hupdate : ReadsAs q (fun _ => True) ['U', 'P', 'D', 'A', 'T', 'E', ' '] [.word keywordUpdate] :=
    reads_word q (c := 'U') (w := ['P', 'D', 'A', 'T', 'E']) (by simp [isWordChar])
  have hset : ReadsAs q (fun _ => True) [' ', 'S', 'E', 'T', ' '] [.word keywordSet] :=
    reads_keyword q (c := 'S') (w := ['E', 'T']) (by simp [isWordChar])
  have hwhere : ReadsAs q (fun _ => True) [' ', 'W', 'H', 'E', 'R', 'E', ' '] [.word keywordWhere] :=
    reads_keyword q (c := 'W') (w := ['H', 'E', 'R', 'E']) (by simp [isWordChar])
  have hassigned : ReadsAs q (fun _ => True)
      ([',', ' '].intercalate ((assignedNames (m.nameOf keyOf d) sets).map fun name =>
        delimited q name ++ [' ', '=', ' ', '?']))
      ([Token.comma].intercalate ((assignedNames (m.nameOf keyOf d) sets).map columnMark)) :=
    ReadsAs.intercalate (reads_comma q) (fun _ => trivial) fun name _ => reads_columnMark q name
  have hall := ((((hupdate.append (tableSql_tokens hq (mapError_eq_ok.mp htable))
    fun _ _ => trivial).append hset fun t _ => clear_blank q _).append hassigned
      fun _ _ => trivial).append hwhere fun _ _ => trivial).append htrees.reads fun _ _ => trivial
  have hlex := hall.lex_eq fun _ ht => absurd ht (Option.not_mem_none _)
  have hread := read_update d.ansiPagination (tablePath_ne_nil (m := m) (d := d)) length_tablePath
    hnames htrees.read htrees.inside
  have hmarks : marks ts = condition.2.length := by rw [htrees.marks, hvalues]
  have hlength : (assignedNames (m.nameOf keyOf d) sets).length = (sets.map Prod.snd).length := by
    rw [assignedNames, List.length_map, List.length_map]
  refine ⟨⟨.update (m.tablePath d) (assignedNames (m.nameOf keyOf d) sets) c,
    (sets.map Prod.snd ++ condition.2).length⟩, ?_, rfl, fun srv db out => ?_⟩
  · simp only [List.append_assoc] at hlex ⊢
    rw [prepare, show countHead.isPrefixOf (['U', 'P', 'D', 'A', 'T', 'E', ' '] ++ _) = false from rfl,
      if_neg Bool.false_ne_true, hlex, Option.bind_some]
    simp only [marks_append, marks_word, marks_nil, marks_tableTokens, marks_assigned, hmarks,
      hlength, Nat.zero_add, List.length_append]
    exact congrArg (Option.map _) hread
  · cases out with
    | rows out => exact Iff.rfl
    | count n => exact Iff.rfl
    | table rows affected =>
      have hholds : c.selects srv.meaning condition.2 = fun row =>
          valueOfAll srv.meaning (CoreStatement.Asks.cell keyOf d row) wheres == some true := by
        funext row
        rw [hvalues, Condition.selects, htrees.value]
        rfl
      simp only [Statement.Runs, CoreStatement.Asks, hlength, List.take_left, List.drop_left, hholds]

end Statements

/-- Whatever the server and the policy, the text of a typed statement does what the statement asks.
Nothing is read of a SELECT through a mapping without columns, nor of one that skips rows without a
limit where LIMIT has to come first. -/
theorem typed_statements_do_what_is_asked (keyOf : m.Index → K) (dbmsName : Text)
    (policy : Option IdentifierCase) (s : CoreStatement K m) (hs : s.wheres ≠ none)
    {r : Text × List (Option V)}
    (h : (s.render keyOf (sqlDialect dbmsName policy) : Except (QueryError E) _) = .ok r) :
    (s.Named ∧ s.Paged (sqlDialect dbmsName policy) →
      Faithful (sqlDialect dbmsName policy).quote keyOf (sqlDialect dbmsName policy) s r) ∧
    (¬(s.Named ∧ s.Paged (sqlDialect dbmsName policy)) →
      prepare (sqlDialect dbmsName policy).quote (sqlDialect dbmsName policy).ansiPagination r.1 =
        none) := by
  have hq := sqlDialect_usesQuote dbmsName policy
  cases s with
  | select shape lim =>
    refine ⟨fun ⟨hnamed, hpaged⟩ => faithful_select hq hnamed hpaged h, fun hneither => ?_⟩
    obtain ⟨c, -, hprepare⟩ := prepare_select hq h
    exact hprepare.trans (if_neg hneither)
  | count shape => exact ⟨fun _ => faithful_count hq h, fun hnone => absurd ⟨trivial, trivial⟩ hnone⟩
  | update sets wheres =>
    exact ⟨fun _ => faithful_update hq h, fun hnone => absurd ⟨trivial, trivial⟩ hnone⟩
  | remove wheres =>
    exact ⟨fun _ => faithful_remove hq h, fun hnone => absurd ⟨trivial, trivial⟩ hnone⟩
  | insertRow row => exact absurd rfl hs
  | updateRow setCols whereCols row => exact absurd rfl hs
  | deleteRow whereCols row => exact absurd rfl hs

end Asked

def noColumn : EntityMeta Unit Bool := { oneColumn with columns := [] }

/-- The third and the fourth of the rows without a value, all but the first two, and no columns. -/
theorem page_of_query_is_asked :
    Faithful .backtick (fun _ => ()) (sqlDialect ['M', 'y', 'S', 'Q', 'L'] none)
      (.select ⟨[.nullCheck () false], [((), .desc)], 2⟩ (some 2) : CoreStatement Unit oneColumn)
      (("SELECT `a` FROM `t` WHERE `a` IS NULL ORDER BY `a` DESC LIMIT 2 OFFSET 2".toList), []) ∧
    prepare .backtick false "SELECT `a` FROM `t` OFFSET 2".toList = none ∧
    prepare .backtick false "SELECT  FROM `t`".toList = none := by
  have hpaged := typed_statements_do_what_is_asked (m := oneColumn) (E := Empty) (fun _ => ())
    ['M', 'y', 'S', 'Q', 'L'] none (.select ⟨[.nullCheck () false], [((), .desc)], 2⟩ (some 2))
    (by simp [CoreStatement.wheres]) rfl
  have hskips := typed_statements_do_what_is_asked (m := oneColumn) (E := Empty) (fun _ => ())
    ['M', 'y', 'S', 'Q', 'L'] none (.select ⟨[], [], 2⟩ none) (by simp [CoreStatement.wheres]) rfl
  have hunnamed := typed_statements_do_what_is_asked (m := noColumn) (E := Empty) (fun _ => ())
    ['M', 'y', 'S', 'Q', 'L'] none (.select ⟨[], [], 0⟩ none) (by simp [CoreStatement.wheres]) rfl
  have hcolumns : oneColumn.allColumns ≠ [] := by decide
  have hunpaged : ¬(CoreStatement.select ⟨[], [], 2⟩ none : CoreStatement Unit oneColumn).Paged
      (sqlDialect ['M', 'y', 'S', 'Q', 'L'] none) := by
    rintro (hansi | hlimit | hoffset)
    · exact absurd hansi (by decide)
    · exact hlimit rfl
    · exact absurd hoffset (by decide)
  exact ⟨hpaged.1 ⟨hcolumns, .inr (.inl (by simp))⟩, hskips.2 fun hboth => hunpaged hboth.2,
    hunnamed.2 fun hboth => hboth.1 rfl⟩

end Uniorm.Orm
