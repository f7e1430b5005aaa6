import Uniorm.Foundation.Action
import Uniorm.Orm.Mapping

/-! # The statements of entity writes

The texts of INSERT, UPDATE and DELETE are built from lists of column indices. Read back as the
server reads them, each placeholder belongs to a column: the one it is compared with or assigned to,
or the one at its place in the column list of an INSERT.
-/
namespace Uniorm.Orm

open Foundation Sql Builder

universe u v

namespace EntityMeta
variable {R : Type u} {V : Type v} {E : Type*} (m : EntityMeta R V)

def buildInsertSql (d : Dialect) : Except (WriteError E) Text := do
  let table ← m.tableSql d
  let columns ← m.allColumns.mapM (m.columnSql d)
  pure (['I', 'N', 'S', 'E', 'R', 'T', ' ', 'I', 'N', 'T', 'O', ' '] ++ table ++ [' ', '('] ++
    [',', ' '].intercalate columns ++ [')', ' ', 'V', 'A', 'L', 'U', 'E', 'S', ' ', '(', '?'] ++
    (List.replicate (m.columns.length - 1) [',', ' ', '?']).flatten ++ [')'])

def placeholderGroup (d : Dialect) (cols : List m.Index) (separator : Text) :
    Except (WriteError E) Text := do
  let columns ← cols.mapM (m.columnSql d)
  pure (separator.intercalate (columns.map (· ++ [' ', '=', ' ', '?'])))

def updateStatement (d : Dialect) (setCols whereCols : List m.Index) :
    Except (WriteError E) Text := do
  let table ← m.tableSql d
  let sets ← m.placeholderGroup d setCols [',', ' ']
  let wheres ← m.placeholderGroup d whereCols [' ', 'A', 'N', 'D', ' ']
  pure (['U', 'P', 'D', 'A', 'T', 'E', ' '] ++ table ++ [' ', 'S', 'E', 'T', ' '] ++ sets ++
    [' ', 'W', 'H', 'E', 'R', 'E', ' '] ++ wheres)

def deleteStatement (d : Dialect) (whereCols : List m.Index) : Except (WriteError E) Text := do
  let table ← m.tableSql d
  let wheres ← m.placeholderGroup d whereCols [' ', 'A', 'N', 'D', ' ']
  pure (['D', 'E', 'L', 'E', 'T', 'E', ' ', 'F', 'R', 'O', 'M', ' '] ++ table ++
    [' ', 'W', 'H', 'E', 'R', 'E', ' '] ++ wheres)

end EntityMeta

/-- The placeholders of assignments and comparisons, each with the column in front of it. -/
def assigned : List Token → List (Option Text)
  | .quoted name :: .op .eq :: .mark :: ts => some name :: assigned ts
  | .mark :: ts => none :: assigned ts
  | _ :: ts => assigned ts
  | [] => []

def Token.name? : Token → Option Text
  | .quoted name => some name
  | _ => none

def markColumns : List Token → List (Option Text)
  | .word ['I', 'N', 'S', 'E', 'R', 'T'] :: ts =>
    let list := ts.dropWhile (· ≠ .lparen)
    let names := (list.takeWhile (· ≠ .rparen)).filterMap Token.name?
    (List.range (marks (list.dropWhile (· ≠ .rparen)))).map (names[·]?)
  | ts => assigned ts

def Clear (q : Quote) (t : Text) : Prop := ∀ c ∈ t.head?, c ≠ q.char

section
variable {R : Type u} {V : Type v} {E : Type*} {m : EntityMeta R V} {d : Dialect} {q : Quote}

theorem reads_delimited (q : Quote) (name : Text) :
    ReadsAs q (Clear q) (delimited q name) [.quoted name] := fun _ ht => lex_delimited_append q name ht

/-- A keyword with the blank behind it. -/
theorem reads_word (q : Quote) {c : Char} {w : Text} (hw : ∀ d ∈ c :: w, isWordChar d = true) :
    ReadsAs q (fun _ => True) (c :: w ++ [' ']) [wordToken (c :: w)] := by
  intro t _
  have hword := lex_word_append q hw (t := ' ' :: t) (by simp [isWordChar])
  rw [List.append_assoc, List.singleton_append, hword, lex_blank]
  rfl

/-- The dot between two delimited names. -/
theorem reads_dot (q : Quote) :
    ReadsAs q (fun t => ∃ t', t = q.char :: t') ['.'] [.word ['.']] := by
  rintro _ ⟨t, rfl⟩
  apply lex_word_append q (c := '.') (w := [])
  · intro d hd
    obtain rfl := List.mem_singleton.mp hd
    rfl
  · intro d hd
    obtain rfl := Option.some.inj hd
    cases q <;> rfl

theorem quoted_ok {r : Except BuilderError Text} {text : Text}
    (h : (EntityMeta.quoted r : Except (WriteError E) Text) = .ok text) : r = .ok text := by
  cases r with
  | error e => cases h
  | ok t => exact congrArg Except.ok (Except.ok.inj h)

theorem columnSql_eq (hq : d.UsesQuote q) {i : m.Index} {text : Text}
    (h : (m.columnSql d i : Except (WriteError E) Text) = .ok text) :
    text = delimited q (m.spelled d i) := by
  unfold EntityMeta.columnSql at h
  unfold EntityMeta.spelled
  cases hres : m.resolved with
  | none =>
    rw [hres] at h
    exact quoteExactIdentifier_eq hq (quoted_ok h)
  | some r =>
    rw [hres] at h
    dsimp only at h ⊢
    split at h
    · rename_i hlen
      split at h
      · cases h
      · have hi : (i : ℕ) < r.columns.length := by rw [hlen]; exact i.isLt
        have hname : r.columns.getD i [] = r.columns.get (i.cast hlen.symm) := by simp [hi]
        rw [hname]
        exact quoteExactIdentifier_eq hq (quoted_ok h)
    · cases h

theorem columns_eq (hq : d.UsesQuote q) {cols : List m.Index} {texts : List Text}
    (h : (cols.mapM (m.columnSql d) : Except (WriteError E) (List Text)) = .ok texts) :
    texts = cols.map fun i => delimited q (m.spelled d i) :=
  eq_map_of_forall₂ ((forall₂_of_mapM h).imp fun _ _ hi => columnSql_eq hq hi)

/-- What a table name is read as: names, with a dot between two. -/
structure TableTokens (ts : List Token) : Prop where
  noParen : Token.lparen ∉ ts
  assigned : ∀ w rest, assigned (ts ++ .word w :: rest) = Orm.assigned rest

theorem qualified_reads (hq : d.UsesQuote q) {qualifier name text : Text}
    (h : (EntityMeta.tableSql.qualified d qualifier name : Except (WriteError E) Text) = .ok text) :
    ∃ ts, ReadsAs q (Clear q) text ts ∧ TableTokens ts := by
  rw [EntityMeta.tableSql.qualified] at h
  by_cases hempty : qualifier = []
  · rw [if_pos hempty, pure_bind] at h
    obtain ⟨last, hlast, hall⟩ := bind_eq_ok.mp h
    obtain rfl := Except.ok.inj hall
    rw [List.nil_append, quoteExactIdentifier_eq hq (quoted_ok hlast)]
    exact ⟨_, reads_delimited q name, by simp, fun w rest => rfl⟩
  · rw [if_neg hempty, map_eq_pure_bind] at h
    obtain ⟨head, hhead, hmore⟩ := bind_eq_ok.mp h
    obtain ⟨first, hfirst, hdotted⟩ := bind_eq_ok.mp hhead
    obtain rfl := Except.ok.inj hdotted
    obtain ⟨last, hlast, hall⟩ := bind_eq_ok.mp hmore
    obtain rfl := Except.ok.inj hall
    have hname := reads_delimited q name
    rw [← quoteExactIdentifier_eq hq (quoted_ok hlast)] at hname
    have hqualifier := reads_delimited q qualifier
    rw [← quoteExactIdentifier_eq hq (quoted_ok hfirst)] at hqualifier
    have hstart : ∀ t, Clear q t → ∃ t', last ++ t = q.char :: t' := by
      intro t _
      rw [quoteExactIdentifier_eq hq (quoted_ok hlast), delimited, List.cons_append,
        List.cons_append]
      exact ⟨_, rfl⟩
    refine ⟨_, (hqualifier.append (reads_dot q) ?_).append hname hstart, by simp, fun w rest => rfl⟩
    rintro _ ⟨t, rfl⟩ c hc
    obtain rfl := Option.some.inj hc
    cases q <;> decide

theorem tableSql_reads (hq : d.UsesQuote q) {text : Text}
    (h : (m.tableSql d : Except (WriteError E) Text) = .ok text) :
    ∃ ts, ReadsAs q (Clear q) text ts ∧ TableTokens ts := by
  unfold EntityMeta.tableSql at h
  cases hres : m.resolved with
  | none =>
    rw [hres] at h
    have hname := reads_delimited q (d.foldIdentifier m.table)
    rw [← quoteExactIdentifier_eq hq (quoted_ok h)] at hname
    exact ⟨_, hname, by simp, fun w rest => rfl⟩
  | some r =>
    rw [hres] at h
    cases hqual : d.tableQualification with
    | unsupported =>
      simp only [hqual] at h
      cases h
    | schema =>
      simp only [hqual] at h
      exact qualified_reads hq h
    | catalog =>
      simp only [hqual] at h
      exact qualified_reads hq h

/-- A keyword between blanks. -/
theorem reads_keyword (q : Quote) {c : Char} {w : Text} (hw : ∀ d ∈ c :: w, isWordChar d = true) :
    ReadsAs q (fun _ => True) (' ' :: (c :: w ++ [' '])) [wordToken (c :: w)] := by
  intro t ht
  rw [List.cons_append, lex_blank]
  exact reads_word q hw t ht

def columnMark (name : Text) : List Token := [.quoted name, .op .eq, .mark]

theorem reads_columnMark (q : Quote) (name : Text) :
    ReadsAs q (fun _ => True) (delimited q name ++ [' ', '=', ' ', '?']) (columnMark name) := by
  intro t _
  have hclear : Clear q (' ' :: '=' :: ' ' :: '?' :: t) := by
    intro c hc
    obtain rfl := Option.some.inj hc
    exact q.char_ne_blank
  have hname := reads_delimited q name _ hclear
  rw [List.append_assoc]
  refine hname.trans ?_
  simp [Function.comp_def, columnMark]

theorem placeholderGroup_reads (hq : d.UsesQuote q) {cols : List m.Index} {sep text : Text}
    {b : List Token} (hsep : ReadsAs q (fun _ => True) sep b)
    (h : (m.placeholderGroup d cols sep : Except (WriteError E) Text) = .ok text) :
    ReadsAs q (fun _ => True) text
      (b.intercalate (cols.map fun i => columnMark (m.spelled d i))) := by
  obtain ⟨texts, htexts, htext⟩ := bind_eq_ok.mp h
  obtain rfl := Except.ok.inj htext
  rw [columns_eq hq htexts, List.map_map]
  exact ReadsAs.intercalate hsep (fun _ => trivial) fun i _ => reads_columnMark q (m.spelled d i)

/-- The placeholders of a group belong to its columns, in order. -/
theorem assigned_group {b : List Token} (hb : ∀ rest, assigned (b ++ rest) = assigned rest)
    (names : List Text) (rest : List Token) :
    assigned (b.intercalate (names.map columnMark) ++ rest) = names.map some ++ assigned rest := by
  induction names with
  | nil => rfl
  | cons name names ih =>
    cases names with
    | nil =>
      simp only [List.map_cons, List.map_nil, List.intercalate_singleton]
      rfl
    | cons next names =>
      have hsplit : b.intercalate ((name :: next :: names).map columnMark) =
          columnMark name ++ (b ++ b.intercalate ((next :: names).map columnMark)) := by
        simp [List.intercalate]
      rw [hsplit, List.append_assoc, List.append_assoc]
      have hfirst : ∀ l, assigned (columnMark name ++ l) = some name :: assigned l := fun l => rfl
      rw [hfirst, hb, ih]
      rfl

theorem markColumns_of_ne {w : Text} (hw : w ≠ ['I', 'N', 'S', 'E', 'R', 'T']) (ts : List Token) :
    markColumns (.word w :: ts) = assigned ts := by
  rw [markColumns]
  · rfl
  · rintro l h
    exact hw (Token.word.inj (List.cons.inj h).1)

/-- The columns of a group, by name. -/
theorem assigned_columns {b : List Token} (hb : ∀ rest, assigned (b ++ rest) = assigned rest)
    (cols : List m.Index) (rest : List Token) :
    assigned (b.intercalate (cols.map fun i => columnMark (m.spelled d i)) ++ rest) =
      cols.map (fun i => some (m.spelled d i)) ++ assigned rest := by
  have hgroup := assigned_group hb (cols.map (m.spelled d)) rest
  rw [List.map_map, List.map_map] at hgroup
  exact hgroup

/-- The condition at the end of a statement. -/
theorem assigned_last (cols : List m.Index) :
    assigned (List.intercalate [.and] (cols.map fun i => columnMark (m.spelled d i))) =
      cols.map fun i => some (m.spelled d i) := by
  have hlast := assigned_columns (d := d) (b := [.and]) (fun _ => rfl) cols []
  simp only [List.append_nil] at hlast
  exact hlast.trans (List.append_nil _)

theorem reads_and (q : Quote) : ReadsAs q (fun _ => True) [' ', 'A', 'N', 'D', ' '] [.and] :=
  reads_keyword q (c := 'A') (w := ['N', 'D']) (by simp [isWordChar])

theorem reads_comma (q : Quote) : ReadsAs q (fun _ => True) [',', ' '] [.comma] := by
  intro t _
  simp

theorem clear_blank (q : Quote) (t : Text) : Clear q (' ' :: t) := by
  intro c hc
  obtain rfl := Option.some.inj hc
  exact q.char_ne_blank

/-- The placeholders of an UPDATE belong to the assigned columns, then to those it matches on. -/
theorem updateStatement_marks (hq : d.UsesQuote q) {setCols whereCols : List m.Index} {sql : Text}
    (h : (m.updateStatement d setCols whereCols : Except (WriteError E) Text) = .ok sql) :
    ∃ ts, lex q sql = some ts ∧
      markColumns ts = (setCols ++ whereCols).map fun i => some (m.spelled d i) := by
  obtain ⟨table, htable, hsets⟩ := bind_eq_ok.mp h
  obtain ⟨sets, hset, hwheres⟩ := bind_eq_ok.mp hsets
  obtain ⟨wheres, hwhere, hsql⟩ := bind_eq_ok.mp hwheres
  obtain rfl := Except.ok.inj hsql
  obtain ⟨ts, hts, hnames⟩ := tableSql_reads hq htable
  have hupdate := reads_word q (c := 'U') (w := ['P', 'D', 'A', 'T', 'E']) (by simp [isWordChar])
  have hkey := reads_keyword q (c := 'S') (w := ['E', 'T']) (by simp [isWordChar])
  have hmatch := reads_keyword q (c := 'W') (w := ['H', 'E', 'R', 'E']) (by simp [isWordChar])
  have hread := ((((hupdate.append hts fun _ _ => trivial).append hkey
    fun t _ => clear_blank q _).append (placeholderGroup_reads hq (reads_comma q) hset)
    fun _ _ => trivial).append hmatch fun _ _ => trivial).append
    (placeholderGroup_reads hq (reads_and q) hwhere) fun _ _ => trivial
  refine ⟨_, hread.lex_eq trivial, ?_⟩
  simp only [List.append_assoc]
  refine (markColumns_of_ne (w := ['U', 'P', 'D', 'A', 'T', 'E']) (by decide) _).trans ?_
  refine (hnames.assigned ['S', 'E', 'T'] _).trans ?_
  refine (assigned_columns (fun _ => rfl) setCols _).trans ?_
  rw [List.map_append]
  congr 1
  exact assigned_last whereCols

/-- The placeholders of a DELETE belong to the columns it matches on. -/
theorem deleteStatement_marks (hq : d.UsesQuote q) {whereCols : List m.Index} {sql : Text}
    (h : (m.deleteStatement d whereCols : Except (WriteError E) Text) = .ok sql) :
    ∃ ts, lex q sql = some ts ∧ markColumns ts = whereCols.map fun i => some (m.spelled d i) := by
  obtain ⟨table, htable, hwheres⟩ := bind_eq_ok.mp h
  obtain ⟨wheres, hwhere, hsql⟩ := bind_eq_ok.mp hwheres
  obtain rfl := Except.ok.inj hsql
  obtain ⟨ts, hts, hnames⟩ := tableSql_reads hq htable
  have hdelete := (reads_word q (c := 'D') (w := ['E', 'L', 'E', 'T', 'E']) (by simp [isWordChar])).append
    (reads_word q (c := 'F') (w := ['R', 'O', 'M']) (by simp [isWordChar])) fun _ _ => trivial
  have hmatch := reads_keyword q (c := 'W') (w := ['H', 'E', 'R', 'E']) (by simp [isWordChar])
  have hread := ((hdelete.append hts fun _ _ => trivial).append hmatch
    fun t _ => clear_blank q _).append (placeholderGroup_reads hq (reads_and q) hwhere)
    fun _ _ => trivial
  refine ⟨_, hread.lex_eq trivial, ?_⟩
  simp only [List.append_assoc]
  refine (markColumns_of_ne (w := ['D', 'E', 'L', 'E', 'T', 'E']) (by decide) _).trans ?_
  refine (hnames.assigned ['W', 'H', 'E', 'R', 'E'] _).trans ?_
  exact assigned_last whereCols

def nameList (names : List Text) : List Token :=
  List.intercalate [.comma] (names.map fun name => [.quoted name])

theorem nameList_cons_cons (name next : Text) (names : List Text) :
    nameList (name :: next :: names) = .quoted name :: .comma :: nameList (next :: names) := by
  simp [nameList, List.intercalate]

theorem nameList_names (names : List Text) : (nameList names).filterMap Token.name? = names := by
  induction names with
  | nil => rfl
  | cons name names ih =>
    cases names with
    | nil => rfl
    | cons next names =>
      rw [nameList_cons_cons]
      simp only [List.filterMap_cons, Token.name?, ih]

theorem rparen_notMem_nameList (names : List Text) : Token.rparen ∉ nameList names := by
  induction names with
  | nil => exact List.not_mem_nil
  | cons name names ih =>
    cases names with
    | nil => simp [nameList]
    | cons next names =>
      rw [nameList_cons_cons]
      simpa using ih

/-- The placeholders after the first one. -/
theorem reads_marks (q : Quote) (n : ℕ) :
    ReadsAs q (fun _ => True) (List.replicate n [',', ' ', '?']).flatten
      (List.replicate n [Token.comma, .mark]).flatten := by
  induction n with
  | zero => exact ReadsAs.nil
  | succ n ih =>
    have hone : ReadsAs q (fun _ => True) [',', ' ', '?'] [Token.comma, .mark] := by
      intro t _
      simp [Function.comp_def]
    rw [List.replicate_succ, List.replicate_succ, List.flatten_cons, List.flatten_cons]
    exact hone.append ih fun _ _ => trivial

theorem marks_replicate (n : ℕ) : marks (List.replicate n [Token.comma, .mark]).flatten = n := by
  induction n with
  | zero => rfl
  | succ n ih =>
    rw [List.replicate_succ, List.flatten_cons, marks_append, ih, marks]
    exact Nat.add_comm 1 n

/-- The placeholders of the row of values. -/
theorem marks_values (n : ℕ) : marks (.word ['V', 'A', 'L', 'U', 'E', 'S'] :: .lparen :: .mark ::
    ((List.replicate n [Token.comma, .mark]).flatten ++ [.rparen])) = 1 + n := by
  have hrest : marks ((List.replicate n [Token.comma, .mark]).flatten ++ [.rparen]) = n := by
    rw [marks_append, marks_replicate]
    rfl
  have hsplit := marks_append [.word ['V', 'A', 'L', 'U', 'E', 'S'], .lparen, .mark]
    ((List.replicate n [Token.comma, .mark]).flatten ++ [.rparen])
  rw [hrest] at hsplit
  exact hsplit

theorem dropWhile_ne {l : List Token} {t : Token} (hl : t ∉ l) (r : List Token) :
    (l ++ t :: r).dropWhile (· ≠ t) = t :: r := by
  rw [List.dropWhile_append_of_pos, List.dropWhile_cons_of_neg (by simp)]
  intro a ha
  exact decide_eq_true (ne_of_mem_of_not_mem ha hl)

theorem takeWhile_ne {l : List Token} {t : Token} (hl : t ∉ l) (r : List Token) :
    (l ++ t :: r).takeWhile (· ≠ t) = l := by
  rw [List.takeWhile_append_of_pos, List.takeWhile_cons_of_neg (by simp), List.append_nil]
  intro a ha
  exact decide_eq_true (ne_of_mem_of_not_mem ha hl)

/-- Each name of the list takes the placeholder at its place. -/
theorem markColumns_insert {ts : List Token} (hts : Token.lparen ∉ ts) (names : List Text)
    (values : List Token) :
    markColumns (.word ['I', 'N', 'S', 'E', 'R', 'T'] :: (ts ++ .lparen ::
      (nameList names ++ .rparen :: values))) = (List.range (marks values)).map (names[·]?) := by
  have hlist : Token.rparen ∉ .lparen :: nameList names := by
    simpa using rparen_notMem_nameList names
  rw [markColumns, dropWhile_ne hts, ← List.cons_append, takeWhile_ne hlist, dropWhile_ne hlist,
    List.filterMap_cons_none rfl, nameList_names]
  rfl

theorem reads_rparen (q : Quote) : ReadsAs q (fun _ => True) [')'] [.rparen] := by
  intro t _
  simp

/-- From the end of the column list to the first placeholder. -/
theorem reads_values (q : Quote) :
    ReadsAs q (fun _ => True) [')', ' ', 'V', 'A', 'L', 'U', 'E', 'S', ' ', '(', '?']
      [.rparen, .word ['V', 'A', 'L', 'U', 'E', 'S'], .lparen, .mark] := by
  have hfirst : ReadsAs q (fun _ => True) ['(', '?'] [.lparen, .mark] := by
    intro t _
    simp [Function.comp_def]
  have hword := reads_keyword q (c := 'V') (w := ['A', 'L', 'U', 'E', 'S']) (by simp [isWordChar])
  exact ((reads_rparen q).append hword fun _ _ => trivial).append hfirst fun _ _ => trivial

/-- The placeholders of an INSERT belong to the mapped columns; where none is mapped there is still
one placeholder. -/
theorem buildInsertSql_marks (hq : d.UsesQuote q) {sql : Text}
    (h : (m.buildInsertSql d : Except (WriteError E) Text) = .ok sql) :
    ∃ ts, lex q sql = some ts ∧ markColumns ts = (List.range (1 + (m.columns.length - 1))).map
      fun k => (m.allColumns.map (m.spelled d))[k]? := by
  obtain ⟨table, htable, hcolumns⟩ := bind_eq_ok.mp h
  obtain ⟨columns, hcolumn, hsql⟩ := bind_eq_ok.mp hcolumns
  obtain rfl := Except.ok.inj hsql
  obtain ⟨ts, hts, hnames⟩ := tableSql_reads hq htable
  have hinsert := (reads_word q (c := 'I') (w := ['N', 'S', 'E', 'R', 'T']) (by simp [isWordChar])).append
    (reads_word q (c := 'I') (w := ['N', 'T', 'O']) (by simp [isWordChar])) fun _ _ => trivial
  have hopen : ReadsAs q (fun _ => True) [' ', '('] [.lparen] := by
    intro t _
    simp
  have hlist : ReadsAs q (Clear q) ([',', ' '].intercalate columns)
      (nameList (m.allColumns.map (m.spelled d))) := by
    rw [columns_eq hq hcolumn, nameList, List.map_map]
    refine ReadsAs.intercalate (reads_comma q) ?_ fun i _ => reads_delimited q (m.spelled d i)
    intro t c hc
    obtain rfl := Option.some.inj hc
    cases q <;> decide
  have hclear : ∀ t, Clear q ([')', ' ', 'V', 'A', 'L', 'U', 'E', 'S', ' ', '(', '?'] ++ t) := by
    intro t c hc
    obtain rfl := Option.some.inj hc
    cases q <;> decide
  have hread := (((((hinsert.append hts fun _ _ => trivial).append hopen
    fun t _ => clear_blank q _).append hlist fun _ _ => trivial).append (reads_values q)
    fun t _ => hclear t).append (reads_marks q (m.columns.length - 1)) fun _ _ => trivial).append
    (reads_rparen q) fun _ _ => trivial
  refine ⟨_, hread.lex_eq trivial, ?_⟩
  have hparen : Token.lparen ∉ wordToken ['I', 'N', 'T', 'O'] :: ts := by
    simpa [wordToken] using hnames.noParen
  simp only [List.append_assoc]
  refine (markColumns_insert hparen _ _).trans ?_
  exact congrArg (fun n => (List.range n).map _) (marks_values (m.columns.length - 1))

end

end Uniorm.Orm
