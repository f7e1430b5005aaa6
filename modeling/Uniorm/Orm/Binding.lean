import Uniorm.Foundation.Letters
import Uniorm.Foundation.Lists
import Uniorm.Orm.Where

/-! # Binding fields to result columns

An entity is read through one binding for each mapped column, each placed at the result column that
carries its label. A server labels the columns of a SELECT with the names they were selected by, so
the fields find their own columns in whatever order these were selected.
-/
namespace Uniorm.Orm

open Foundation Sql Builder

universe u v

/-- `fold_equal`. -/
def foldEqual : Text → Text → Bool
  | [], [] => true
  | a :: left, b :: right => a.toLower == b.toLower && foldEqual left right
  | _, _ => false

/-- What the placing of a field throws. -/
inductive BindError where
  | resolutionSize
  | columnNotFound (label : Text)
  deriving DecidableEq, Repr

def BindError.what : BindError → String
  | resolutionSize => "identifier resolution does not match the mapped column count"
  | columnNotFound label => "result set has no column \"" ++ String.ofList label ++ "\""

namespace EntityMeta
variable {R : Type u} {V : Type v} (m : EntityMeta R V)

/-- The name a field is looked up by: the resolved one, or the declared one as it is. -/
def label (i : m.Index) : Text :=
  match m.resolved with
  | none => (m.col i).column
  | some r => r.columns.getD i []

/-- The place of the first name that is the label, or else of the first that folds to it. -/
def ordinalOf (label : Text) (result : List Text) : Except BindError ℕ :=
  match result.findIdx? (· == label) with
  | some slot => .ok (slot + 1)
  | none =>
    match result.findIdx? (foldEqual · label) with
    | some slot => .ok (slot + 1)
    | none => .error (.columnNotFound label)

/-- `result_ordinal`, of the names the statement reports. -/
def resultOrdinal (i : m.Index) (result : List Text) : Except BindError ℕ :=
  match m.resolved with
  | none => ordinalOf (m.label i) result
  | some r =>
    if r.columns.length = m.columns.length then ordinalOf (m.label i) result
    else .error .resolutionSize

/-- `entity_binding::bind`: the column each field is placed at. -/
def bindEntity (result : List Text) : Except BindError (List ℕ) :=
  m.allColumns.mapM fun i => m.resultOrdinal i result

end EntityMeta

def selectNames : List Token → Option (List Text)
  | .word ['S', 'E', 'L', 'E', 'C', 'T'] :: ts =>
    some ((ts.takeWhile (· ≠ .word ['F', 'R', 'O', 'M'])).filterMap Token.name?)
  | _ => none

def serverLabels (q : Quote) (sql : Text) : Option (List Text) := (lex q sql).bind selectNames

def selectOf (columns : List Text) (source : Text) : Text :=
  ['S', 'E', 'L', 'E', 'C', 'T', ' '] ++ [',', ' '].intercalate columns ++
    [' ', 'F', 'R', 'O', 'M', ' '] ++ source

theorem word_notMem_nameList (w : Text) (names : List Text) : Token.word w ∉ nameList names := by
  induction names with
  | nil => exact List.not_mem_nil
  | cons name names ih =>
    cases names with
    | nil => simp [nameList]
    | cons next names =>
      rw [nameList_cons_cons]
      simpa using ih

theorem serverLabels_select (q : Quote) (names : List Text) {source : Text} {ts : List Token}
    (hsource : lex q source = some ts) :
    serverLabels q (selectOf (names.map (delimited q)) source) = some names := by
  have hselect := reads_word q (c := 'S') (w := ['E', 'L', 'E', 'C', 'T']) (by simp [isWordChar])
  have hfrom := reads_keyword q (c := 'F') (w := ['R', 'O', 'M']) (by simp [isWordChar])
  have hlist : ReadsAs q (Clear q) ([',', ' '].intercalate (names.map (delimited q)))
      (nameList names) := by
    refine ReadsAs.intercalate (reads_comma q) ?_ fun name _ => reads_delimited q name
    intro t c hc
    obtain rfl := Option.some.inj hc
    cases q <;> decide
  have hread := (hselect.append hlist fun _ _ => trivial).append hfrom fun t _ => clear_blank q _
  have hlex := hread source trivial
  rw [hsource, Option.map_some] at hlex
  have hfirst : lex q (selectOf (names.map (delimited q)) source) =
      some (.word ['S', 'E', 'L', 'E', 'C', 'T'] ::
        (nameList names ++ .word ['F', 'R', 'O', 'M'] :: ts)) := by
    refine hlex.trans ?_
    simp [wordToken]
  rw [serverLabels, hfirst, Option.bind_some, selectNames, takeWhile_ne (word_notMem_nameList _ _),
    nameList_names]

@[simp] theorem foldEqual_iff (left right : Text) :
    foldEqual left right = true ↔ foldLower left = foldLower right := by
  induction left generalizing right with
  | nil => cases right <;> simp [foldEqual, foldLower]
  | cons a left ih =>
    cases right with
    | nil => simp [foldEqual, foldLower]
    | cons b right =>
      have hrest := ih right
      simp only [foldLower] at hrest
      simp [foldEqual, foldLower, hrest]

theorem foldLower_foldIdentifier (d : Dialect) (name : Text) :
    foldLower (d.foldIdentifier name) = foldLower name := by
  unfold Dialect.foldIdentifier
  cases d.identifiers with
  | lower => exact foldLower_foldLower name
  | upper =>
    rw [foldLower, foldLower, foldUpper, List.map_map]
    exact List.map_congr_left fun c _ => lower_upper c
  | keep => rfl

theorem foldIdentifier_idem (d : Dialect) (name : Text) :
    d.foldIdentifier (d.foldIdentifier name) = d.foldIdentifier name := by
  unfold Dialect.foldIdentifier
  cases d.identifiers with
  | lower => exact foldLower_foldLower name
  | upper =>
    rw [foldUpper, foldUpper, List.map_map]
    exact List.map_congr_left fun c _ => upper_upper c
  | keep => rfl

/-- Under a policy that folds, names that differ in the case of letters only are one name. -/
theorem foldIdentifier_congr {d : Dialect} (hd : d.identifiers ≠ .keep) {left right : Text}
    (h : foldLower left = foldLower right) : d.foldIdentifier left = d.foldIdentifier right := by
  unfold Dialect.foldIdentifier
  cases hcase : d.identifiers with
  | lower => exact h
  | upper =>
    have hupper := congrArg foldUpper h
    simpa [foldLower, foldUpper, Function.comp_def, upper_lower] using hupper
  | keep => exact absurd hcase hd

section
variable {R : Type u} {V K : Type} {E : Type*} [DecidableEq K] {m : EntityMeta R V} {d : Dialect}

/-- The name a column is spelled with is the one of its field, folded unless it is resolved. -/
theorem spelled_eq (i : m.Index) :
    m.spelled d i = if m.resolved = none then d.foldIdentifier (m.label i) else m.label i := by
  unfold EntityMeta.spelled EntityMeta.label
  cases m.resolved <;> rfl

/-- A name that is the label of a field is not the spelling of another one. -/
theorem eq_of_spelled_eq_label (hinj : Function.Injective (m.spelled d)) {i j : m.Index}
    (h : m.spelled d j = m.label i) : j = i := by
  apply hinj
  rw [spelled_eq i]
  split_ifs with hres
  · rw [← h, spelled_eq j, if_pos hres, foldIdentifier_idem]
  · exact h

/-- Where no spelling is the label of a field, only its own folds to it. -/
theorem foldEqual_label_iff (hinj : Function.Injective (m.spelled d)) {i : m.Index}
    (hother : m.spelled d i ≠ m.label i) (j : m.Index) :
    foldEqual (m.spelled d j) (m.label i) = true ↔ j = i := by
  have hres : m.resolved = none := by
    by_contra hres
    exact hother (by rw [spelled_eq, if_neg hres])
  have hkeep : d.identifiers ≠ .keep := by
    intro hkeep
    apply hother
    rw [spelled_eq, if_pos hres, Dialect.foldIdentifier, hkeep]
  rw [foldEqual_iff, spelled_eq, if_pos hres, foldLower_foldIdentifier]
  constructor
  · intro h
    apply hinj
    rw [spelled_eq, spelled_eq, if_pos hres, if_pos hres, foldIdentifier_congr hkeep h]
  · rintro rfl
    rfl

/-- Among the spellings of columns a label finds its own. -/
theorem ordinalOf_spelled (hinj : Function.Injective (m.spelled d)) {cols : List m.Index}
    (hcols : cols.Nodup) {i : m.Index} {k : ℕ} (hk : cols[k]? = some i) :
    EntityMeta.ordinalOf (m.label i) (cols.map (m.spelled d)) = .ok (k + 1) := by
  unfold EntityMeta.ordinalOf
  by_cases hexact : m.spelled d i = m.label i
  · have hfind : (cols.map (m.spelled d)).findIdx? (· == m.label i) = some k := by
      apply findIdx?_map_of_unique hcols hk (by simpa using hexact)
      intro j hj
      exact eq_of_spelled_eq_label hinj (by simpa using hj)
    rw [hfind]
  · have hnone : (cols.map (m.spelled d)).findIdx? (· == m.label i) = none := by
      rw [List.findIdx?_eq_none_iff]
      intro name hname
      obtain ⟨j, -, rfl⟩ := List.mem_map.mp hname
      by_contra h
      have hj : m.spelled d j = m.label i := by simpa using h
      obtain rfl := eq_of_spelled_eq_label hinj hj
      exact hexact hj
    have hfind : (cols.map (m.spelled d)).findIdx? (foldEqual · (m.label i)) = some k :=
      findIdx?_map_of_unique hcols hk ((foldEqual_label_iff hinj hexact i).mpr rfl)
        fun j hj => (foldEqual_label_iff hinj hexact j).mp hj
    rw [hnone, hfind]

/-- A column that is rendered has the names of the resolution, if there is one. -/
theorem resolution_length {i : m.Index} {text : Text}
    (h : (m.columnSql d i : Except (WriteError E) Text) = .ok text) :
    ∀ r, m.resolved = some r → r.columns.length = m.columns.length := by
  intro r hres
  rw [EntityMeta.columnSql, hres] at h
  dsimp only at h
  split at h
  · assumption
  · cases h

theorem resultOrdinal_eq (i : m.Index) (result : List Text)
    (h : ∀ r, m.resolved = some r → r.columns.length = m.columns.length) :
    m.resultOrdinal i result = EntityMeta.ordinalOf (m.label i) result := by
  unfold EntityMeta.resultOrdinal
  cases hres : m.resolved with
  | none => rfl
  | some r => exact if_pos (h r hres)

/-- What may follow a name or a word: nothing, or a blank and a text the server reads. -/
structure Follows (q : Quote) (t : Text) : Prop where
  read : ∃ ts, lex q t = some ts
  blank : t = [] ∨ t.head? = some ' '

theorem Follows.ends {q : Quote} {t : Text} (h : Follows q t) : Predicate.Ends q t := by
  intro c hc
  rcases h.blank with rfl | hblank
  · cases hc
  · obtain rfl := Option.some.inj (hblank.symm.trans hc)
    exact ⟨rfl, q.char_ne_blank⟩

theorem Follows.prepend {q : Quote} {s t : Text} {a : List Token} (h : Follows q t)
    (hs : ReadsAs q (Predicate.Ends q) (' ' :: s) a) : Follows q (' ' :: s ++ t) := by
  obtain ⟨ts, hts⟩ := h.read
  refine ⟨⟨a ++ ts, ?_⟩, .inr rfl⟩
  rw [hs t h.ends, hts, Option.map_some]

def isWordOrBlank (c : Char) : Bool := isWordChar c || c == ' '

/-- Words with blanks between them are read as they stand. -/
theorem lexFrom_words (q : Quote) {s : Text}
    (hs : s.all isWordOrBlank = true) :
    (∃ ts, lex q s = some ts) ∧ ∀ w, ∃ ts, lexFrom q (.word w) s = some ts := by
  induction s with
  | nil => exact ⟨⟨_, rfl⟩, fun w => ⟨_, rfl⟩⟩
  | cons c s ih =>
    rw [List.all_cons, isWordOrBlank, Bool.and_eq_true, Bool.or_eq_true, beq_iff_eq] at hs
    obtain ⟨⟨gap, hgap⟩, hword⟩ := ih hs.2
    rcases hs.1 with hc | rfl
    · constructor
      · obtain ⟨ts, hts⟩ := hword [c]
        have hfirst : lex q (c :: s) = lexFrom q (.word [c]) s := lex_word_cons q hc s
        exact ⟨ts, hfirst.trans hts⟩
      · intro w
        obtain ⟨ts, hts⟩ := hword (w ++ [c])
        have hone := lexFrom_word_append q w [c] s (by simpa using hc)
        exact ⟨ts, hone.trans hts⟩
    · constructor
      · exact ⟨gap, (lex_blank q s).trans hgap⟩
      · intro w
        have hclose := lexFrom_of_close (q := q) (m := .word w) rfl (t := ' ' :: s)
          fun d hd => by
            obtain rfl := Option.some.inj hd
            rfl
        rw [lex_blank, hgap] at hclose
        exact ⟨_, hclose⟩

theorem pagination_words (d : Dialect) (limit : Option ℕ) (offset : ℕ) :
    (d.pagination limit offset).all isWordOrBlank = true := by
  have hnumeral (n : ℕ) : (numeral n).all isWordOrBlank = true := by
    rw [List.all_eq_true]
    intro c hc
    have hdigit := isDigit_of_mem_numeral hc
    simp [isWordOrBlank, isWordChar, Char.isAlphanum, hdigit]
  unfold Dialect.pagination
  split
  · rfl
  · split
    · cases limit with
      | none => split_ifs <;> simp [hnumeral, isWordOrBlank, isWordChar]
      | some n => split_ifs <;> simp [hnumeral, isWordOrBlank, isWordChar]
    · cases limit with
      | none => split_ifs <;> simp [hnumeral, isWordOrBlank, isWordChar]
      | some n => split_ifs <;> simp [hnumeral, isWordOrBlank, isWordChar]

theorem pagination_follows (q : Quote) (d : Dialect) (limit : Option ℕ) (offset : ℕ) :
    Follows q (d.pagination limit offset) := by
  refine ⟨(lexFrom_words q (pagination_words d limit offset)).1, ?_⟩
  unfold Dialect.pagination
  split
  · exact .inl rfl
  · split
    · cases limit with
      | none => split_ifs <;> simp
      | some n => split_ifs <;> simp
    · cases limit with
      | none => split_ifs <;> simp
      | some n => split_ifs <;> simp

theorem direction_reads (q : Quote) (dir : Direction) :
    ∃ ts, ReadsAs q (Predicate.Ends q) dir.sql ts := by
  cases dir with
  | asc => exact ⟨_, Predicate.reads_last_word (c := 'A') (w := ['S', 'C']) (by simp [isWordChar])⟩
  | desc =>
    exact ⟨_, Predicate.reads_last_word (c := 'D') (w := ['E', 'S', 'C']) (by simp [isWordChar])⟩

theorem orders_follow {keyOf : m.Index → K} {q : Quote} (hq : d.UsesQuote q)
    {orders : List (K × Direction)} {text t : Text}
    (h : (m.ordersSql keyOf d orders : Except (QueryError E) Text) = .ok text)
    (ht : Follows q t) : Follows q (text ++ t) := by
  by_cases hempty : orders = []
  · rw [hempty] at h
    obtain rfl := Except.ok.inj h
    exact ht
  · rw [EntityMeta.ordersSql, if_neg (by simpa using hempty)] at h
    obtain ⟨parts, hparts, h⟩ := bind_eq_ok.mp h
    obtain rfl := Except.ok.inj h
    have hpart : ∀ part ∈ parts, ∃ ts, ReadsAs q (Predicate.Ends q) part ts := by
      intro part hpart
      obtain ⟨order, -, horder⟩ := exists_of_forall₂ (forall₂_of_mapM hparts) hpart
      obtain ⟨column, hcolumn, rfl⟩ := map_eq_ok.mp horder
      obtain ⟨ts, hts⟩ := direction_reads q order.2
      rw [columnSqlOf_resolves hq _ _ hcolumn]
      refine ⟨_, (reads_delimited q _).append hts ?_⟩
      intro u hu
      cases order.2 <;> exact clear_blank q _
    choose! tokens htokens using hpart
    have hlist : ReadsAs q (Predicate.Ends q) ([',', ' '].intercalate (parts.map id))
        (List.intercalate [.comma] (parts.map tokens)) := by
      refine ReadsAs.intercalate (reads_comma q) ?_ htokens
      intro t c hc
      obtain rfl := Option.some.inj hc
      cases q <;> exact ⟨rfl, by decide⟩
    rw [List.map_id] at hlist
    have horder := (Predicate.reads_last_word (q := q) (c := 'O') (w := ['R', 'D', 'E', 'R'])
      (by simp [isWordChar])).append
      (reads_keyword q (c := 'B') (w := ['Y']) (by simp [isWordChar])) fun _ _ =>
        Predicate.ends_blank _
    exact ht.prepend (horder.append hlist fun _ _ => trivial)

theorem condition_follows {keyOf : m.Index → K} {q : Quote} (hq : d.UsesQuote q)
    {wheres : List (Predicate K (Option V))} {r : Text × List (Option V)} {t : Text}
    (h : (m.optionalWhere keyOf d wheres : Except (QueryError E) _) = .ok r)
    (ht : Follows q t) : Follows q (r.1 ++ t) := by
  by_cases hempty : wheres = []
  · rw [hempty] at h
    obtain rfl := Except.ok.inj h
    exact ht
  · obtain ⟨w, hw, rfl⟩ := optionalWhere_eq hempty h
    obtain ⟨texts, hall, rfl⟩ := whereSql_renders hq hw
    cases hall with
    | nil => exact absurd rfl hempty
    | cons hp hps =>
      have hkey := reads_keyword q (c := 'W') (w := ['H', 'E', 'R', 'E']) (by simp [isWordChar])
      exact ht.prepend (hkey.append (Predicate.joined_reads hp hps) fun _ _ => trivial)

theorem renderSelect_eq {keyOf : m.Index → K} {q : Quote} (hq : d.UsesQuote q)
    {shape : QueryShape K V} {lim : Option ℕ} {r : Text × List (Option V)}
    (h : (m.renderSelect keyOf d shape lim : Except (QueryError E) _) = .ok r) :
    ∃ source ts, r.1 = selectOf ((m.allColumns.map (m.spelled d)).map (delimited q)) source ∧
      lex q source = some ts ∧
      ∀ i, ∃ text, (m.columnSql d i : Except (WriteError E) Text) = .ok text := by
  obtain ⟨columns, hcolumns, h⟩ := bind_eq_ok.mp h
  obtain ⟨table, htable, h⟩ := bind_eq_ok.mp h
  obtain ⟨condition, hcondition, h⟩ := bind_eq_ok.mp h
  obtain ⟨orders, horders, h⟩ := bind_eq_ok.mp h
  obtain rfl := Except.ok.inj h
  have hall := (forall₂_of_mapM hcolumns).imp fun i text hi => mapError_eq_ok.mp hi
  have htail := condition_follows hq hcondition
    (orders_follow hq horders (pagination_follows q d lim shape.offset))
  obtain ⟨ts, hts, -⟩ := tableSql_reads hq (mapError_eq_ok.mp htable)
  obtain ⟨rest, hrest⟩ := htail.read
  refine ⟨table ++ (condition.1 ++ (orders ++ d.pagination lim shape.offset)), ts ++ rest, ?_, ?_, ?_⟩
  · have hnames : columns = (m.allColumns.map (m.spelled d)).map (delimited q) := by
      rw [List.map_map]
      exact eq_map_of_forall₂ (hall.imp fun i text hi => columnSql_eq hq hi)
    rw [← hnames]
    simp only [selectOf, List.append_assoc]
  · rw [hts _ fun c hc => (htail.ends c hc).2, hrest, Option.map_some]
  · intro i
    obtain ⟨text, -, htext⟩ := exists_of_forall₂ hall.flip (List.mem_finRange i)
    exact ⟨text, htext⟩

theorem spelled_injective (hnames : (m.allColumns.map (m.spelled d)).Nodup) :
    Function.Injective (m.spelled d) := by
  intro i j h
  exact List.inj_on_of_nodup_map hnames (List.mem_finRange i) (List.mem_finRange j) h

theorem serverLabels_columns {q : Quote} (hq : d.UsesQuote q) {cols : List m.Index}
    {texts : List Text} {source : Text} {ts : List Token}
    (htexts : (cols.mapM (m.columnSql d) : Except (WriteError E) (List Text)) = .ok texts)
    (hsource : lex q source = some ts) :
    serverLabels q (selectOf texts source) = some (cols.map (m.spelled d)) := by
  have hlabels := serverLabels_select q (cols.map (m.spelled d)) hsource
  rw [List.map_map] at hlabels
  rw [columns_eq hq htexts]
  exact hlabels

/-- In a result with the spellings of all columns in some order, every field is placed at its own. -/
theorem bindEntity_spelled (hinj : Function.Injective (m.spelled d)) {cols : List m.Index}
    (hcols : cols.Perm m.allColumns)
    (hrendered : ∀ i, ∃ text, (m.columnSql d i : Except (WriteError E) Text) = .ok text) :
    m.bindEntity (cols.map (m.spelled d)) =
      .ok (m.allColumns.map fun i => cols.idxOf i + 1) := by
  have hone : (fun i => m.resultOrdinal i (cols.map (m.spelled d))) =
      fun i => pure (cols.idxOf i + 1) := by
    funext i
    obtain ⟨text, htext⟩ := hrendered i
    have hmem : i ∈ cols := hcols.mem_iff.mpr (List.mem_finRange i)
    have hk : cols[cols.idxOf i]? = some i := List.getElem?_idxOf hmem
    rw [resultOrdinal_eq i _ (resolution_length htext)]
    exact ordinalOf_spelled hinj (hcols.nodup_iff.mpr (List.nodup_finRange _)) hk
  rw [EntityMeta.bindEntity, hone]
  exact List.mapM_pure

end

section
variable {R : Type u} {V K : Type} {E : Type*} [DecidableEq K] {m : EntityMeta R V}

/-- Where the spellings of the columns are pairwise distinct, the SELECT of a query gives field `i`
the column `i + 1`, and a SELECT of the columns in any other order gives every field the column with
its own label. -/
theorem fields_bind_at_own_columns (dbmsName : Text) (policy : Option IdentifierCase)
    (hnames : (m.allColumns.map (m.spelled (sqlDialect dbmsName policy))).Nodup) :
    (∀ (keyOf : m.Index → K) (shape : QueryShape K V) (lim : Option ℕ) (r : Text × List (Option V)),
      (m.renderSelect keyOf (sqlDialect dbmsName policy) shape lim :
        Except (QueryError E) _) = .ok r →
      ∃ result, serverLabels (sqlDialect dbmsName policy).quote r.1 = some result ∧
        ∀ i : m.Index, m.resultOrdinal i result = .ok (i + 1)) ∧
    (∀ (cols : List m.Index) (texts : List Text) (source : Text) (ts : List Token),
      cols.Perm m.allColumns →
      (cols.mapM (m.columnSql (sqlDialect dbmsName policy)) :
        Except (WriteError E) (List Text)) = .ok texts →
      lex (sqlDialect dbmsName policy).quote source = some ts →
      ∃ result ordinals,
        serverLabels (sqlDialect dbmsName policy).quote (selectOf texts source) = some result ∧
        m.bindEntity result = .ok ordinals ∧ ordinals.length = m.columns.length ∧
        ∀ i : m.Index, ∃ k, ordinals[(i : ℕ)]? = some (k + 1) ∧ cols[k]? = some i ∧
          result[k]? = some (m.spelled (sqlDialect dbmsName policy) i)) := by
  have hq := sqlDialect_usesQuote dbmsName policy
  have hinj := spelled_injective hnames
  constructor
  · intro keyOf shape lim r h
    obtain ⟨source, ts, htext, hsource, hcolumns⟩ := renderSelect_eq hq h
    refine ⟨m.allColumns.map (m.spelled (sqlDialect dbmsName policy)), ?_, ?_⟩
    · rw [htext]
      exact serverLabels_select _ _ hsource
    · intro i
      obtain ⟨text, hi⟩ := hcolumns i
      rw [resultOrdinal_eq i _ (resolution_length hi)]
      exact ordinalOf_spelled hinj (List.nodup_finRange _) (by simp)
  · intro cols texts source ts hcols htexts hsource
    have hrendered (i : m.Index) :
        ∃ text, (m.columnSql (sqlDialect dbmsName policy) i : Except (WriteError E) Text) =
          .ok text := by
      obtain ⟨text, -, htext⟩ :=
        exists_of_forall₂ (forall₂_of_mapM htexts).flip (hcols.mem_iff.mpr (List.mem_finRange i))
      exact ⟨text, htext⟩
    refine ⟨_, _, serverLabels_columns hq htexts hsource, bindEntity_spelled hinj hcols hrendered,
      by simp [EntityMeta.allColumns], ?_⟩
    intro i
    have hmem : i ∈ cols := hcols.mem_iff.mpr (List.mem_finRange i)
    have hk : cols[cols.idxOf i]? = some i := List.getElem?_idxOf hmem
    exact ⟨cols.idxOf i, by simp [EntityMeta.allColumns], hk, by rw [List.getElem?_map, hk]; rfl⟩

end

/-- A mapping whose second name is the first one in upper case. -/
def twoCases : EntityMeta Unit Bool where
  table := ['t']
  columns := [.flag ['i', 'd'] true, .flag ['I', 'D'] false]
  resolved := none

def twoCases.reversed : List twoCases.Index := [⟨1, by decide⟩, ⟨0, by decide⟩]

/-- The columns of such a mapping, selected the other way round. -/
theorem two_cases_bind : ∃ result ordinals,
    serverLabels .double ['S', 'E', 'L', 'E', 'C', 'T', ' ', '"', 'I', 'D', '"', ',', ' ', '"', 'i',
      'd', '"', ' ', 'F', 'R', 'O', 'M', ' ', 't'] = some result ∧
    twoCases.bindEntity result = .ok ordinals ∧ ordinals.length = 2 ∧
    ∀ i : twoCases.Index, ∃ k, ordinals[(i : ℕ)]? = some (k + 1) ∧
      twoCases.reversed[k]? = some i ∧
      result[k]? = some (twoCases.spelled (sqlDialect [] none) i) := by
  have hnames : (twoCases.allColumns.map (twoCases.spelled (sqlDialect [] none))).Nodup := by decide
  exact (fields_bind_at_own_columns (K := Unit) (E := Empty) [] none hnames).2 twoCases.reversed
    [['"', 'I', 'D', '"'], ['"', 'i', 'd', '"']] ['t'] [.word ['t']] (by decide) rfl rfl

end Uniorm.Orm
