import Uniorm.Backend.Rendered
import Uniorm.Orm.Query

/-! # Every statement of the core survives the rewriting

Each statement the core renders for an entity is spelled by a sound sequence of
segments whose names are the folded or resolved names of the mapping and whose
marks are as many as the values bound, an INSERT of a mapping without columns
apart. The rest is what the backends do with a sound text.
-/
namespace Uniorm.Backend

open Foundation Sql Builder Orm

universe u

/-- The text is spelled by a sound sequence of segments with these names and so many marks. -/
def Spells (sql : Text) (ns : List Text) (n : ℕ) : Prop :=
  ∃ segs, Sound segs ∧ spell segs = sql ∧ names segs = ns ∧ segmentMarks segs = n

theorem spells_lits {s : Text} (hs : s.all isPlain = true) : Spells s [] 0 :=
  ⟨lits s, sound_lits hs, spell_lits s, names_lits s, segmentMarks_lits s⟩

theorem spells_nil : Spells [] [] 0 := spells_lits rfl

theorem spells_name (name : Text) : Spells (delimited .double name) [name] 0 :=
  ⟨[.name name], sound_name name, List.append_nil _, rfl, rfl⟩

theorem spells_mark : Spells ['?'] [] 1 := ⟨[.mark], sound_mark, rfl, rfl, rfl⟩

section
variable {a b s : Text} {na nb : List Text} {ka kb : ℕ}

/-- Two texts with plain characters between them. -/
theorem Spells.join (ha : Spells a na ka) (hb : Spells b nb kb) (hs : s.all isPlain = true)
    (hne : s ≠ []) : Spells (a ++ s ++ b) (na ++ nb) (ka + kb) := by
  obtain ⟨x, hx, rfl, rfl, rfl⟩ := ha
  obtain ⟨y, hy, rfl, rfl, rfl⟩ := hb
  exact ⟨x ++ lits s ++ y, hx.join hs hne hy, by simp, by simp, by simp⟩

/-- Plain characters in front of a text. -/
theorem Spells.after (hb : Spells b nb kb) (hs : s.all isPlain = true) (hne : s ≠ []) :
    Spells (s ++ b) nb kb := by
  have h := spells_nil.join hb hs hne
  simpa using h

/-- Plain characters behind a text. -/
theorem Spells.before (ha : Spells a na ka) (hs : s.all isPlain = true) (hne : s ≠ []) :
    Spells (a ++ s) na ka := by
  have h := ha.join spells_nil hs hne
  simpa using h

theorem spells_intercalate {ι α : Type*} {sep : Text} (hsep : sep.all isPlain = true)
    (hne : sep ≠ []) (text : α → Text) (ns : ι → List Text) (k : α → ℕ) {l : List ι} {rs : List α}
    (h : List.Forall₂ (fun i r => Spells (text r) (ns i) (k r)) l rs) :
    Spells (sep.intercalate (rs.map text)) (l.flatMap ns) (rs.map k).sum := by
  induction h with
  | nil => exact spells_nil
  | @cons i r l rs hfirst hmore ih =>
    cases hmore with
    | nil => simpa using hfirst
    | @cons j r' l rs _ _ =>
      have hsplit : sep.intercalate ((r :: r' :: rs).map text) =
          text r ++ sep ++ sep.intercalate ((r' :: rs).map text) := by
        simp [List.intercalate, List.append_assoc]
      have hsum : ((r :: r' :: rs).map k).sum = k r + ((r' :: rs).map k).sum := by
        rw [List.map_cons, List.sum_cons]
      rw [hsplit, List.flatMap_cons, hsum]
      exact hfirst.join ih hsep hne

end

section
variable {R : Type u} {V K : Type} {E : Type*} [DecidableEq K] {m : EntityMeta R V}
  {keyOf : m.Index → K} {d : Dialect}

def tableNames (m : EntityMeta R V) (d : Dialect) : List Text :=
  match m.resolved with
  | none => [d.foldIdentifier m.table]
  | some r =>
    let qualifier := match d.tableQualification with
      | .unsupported => []
      | .schema => r.schema
      | .catalog => r.catalog
    (if qualifier = [] then [] else [qualifier]) ++ [r.name]

def keyNames (keyOf : m.Index → K) (d : Dialect) (key : K) : List Text :=
  ((m.keyColumn keyOf key).map (m.spelled d)).toList

theorem qualified_spells (hq : d.UsesQuote .double) {qualifier name text : Text}
    (h : (EntityMeta.tableSql.qualified d qualifier name : Except (WriteError E) Text) = .ok text) :
    Spells text ((if qualifier = [] then [] else [qualifier]) ++ [name]) 0 := by
  rw [EntityMeta.tableSql.qualified] at h
  by_cases hempty : qualifier = []
  · rw [if_pos hempty, pure_bind] at h
    obtain ⟨last, hlast, hall⟩ := bind_eq_ok.mp h
    obtain rfl := Except.ok.inj hall
    rw [if_pos hempty, List.nil_append, quoteExactIdentifier_eq hq (quoted_ok hlast)]
    exact spells_name name
  · rw [if_neg hempty, map_eq_pure_bind] at h
    obtain ⟨head, hhead, hmore⟩ := bind_eq_ok.mp h
    obtain ⟨first, hfirst, hdotted⟩ := bind_eq_ok.mp hhead
    obtain rfl := Except.ok.inj hdotted
    obtain ⟨last, hlast, hall⟩ := bind_eq_ok.mp hmore
    obtain rfl := Except.ok.inj hall
    rw [if_neg hempty, quoteExactIdentifier_eq hq (quoted_ok hlast),
      quoteExactIdentifier_eq hq (quoted_ok hfirst)]
    exact (spells_name qualifier).join (spells_name name) (by decide) (by decide)

theorem tableSql_spells (hq : d.UsesQuote .double) {text : Text}
    (h : (m.tableSql d : Except (WriteError E) Text) = .ok text) :
    Spells text (tableNames m d) 0 := by
  unfold EntityMeta.tableSql at h
  unfold tableNames
  cases hres : m.resolved with
  | none =>
    rw [hres] at h
    rw [quoteExactIdentifier_eq hq (quoted_ok h)]
    exact spells_name _
  | some r =>
    rw [hres] at h
    cases hqual : d.tableQualification with
    | unsupported =>
      simp only [hqual] at h
      cases h
    | schema =>
      simp only [hqual] at h ⊢
      exact qualified_spells hq h
    | catalog =>
      simp only [hqual] at h ⊢
      exact qualified_spells hq h

theorem columnSqlOf_eq (hq : d.UsesQuote .double) {key : K} {text : Text}
    (h : (m.columnSqlOf keyOf d key : Except (QueryError E) Text) = .ok text) :
    Spells text (keyNames keyOf d key) 0 := by
  unfold EntityMeta.columnSqlOf at h
  unfold keyNames
  cases hkey : m.keyColumn keyOf key with
  | none =>
    rw [hkey] at h
    cases h
  | some i =>
    rw [hkey] at h
    rw [columnSql_eq hq (mapError_eq_ok.mp h)]
    exact spells_name _

theorem compOpText_plain (op : CompOp) :
    ([' '] ++ compOpText op ++ [' ']).all isPlain = true := by
  cases op <;> decide

theorem comma_plain : [',', ' '].all isPlain = true := by decide

theorem or_plain : [' ', 'O', 'R', ' '].all isPlain = true := by decide

theorem and_plain : [' ', 'A', 'N', 'D', ' '].all isPlain = true := by decide

theorem spells_marks {S : Type*} (values : List S) :
    Spells ([',', ' '].intercalate (values.map fun _ => ['?'])) [] values.length := by
  have hall : List.Forall₂ (fun _ _ => Spells ['?'] [] 1) values values :=
    List.forall₂_same.mpr fun _ _ => spells_mark
  have hmarks := spells_intercalate comma_plain (by decide) (fun _ : S => ['?']) (fun _ : S => [])
    (fun _ => 1) hall
  have hnone : values.flatMap (fun _ => ([] : List Text)) = [] := by simp
  have hsum : (values.map fun _ => 1).sum = values.length := by simp
  rw [hnone, hsum] at hmarks
  exact hmarks

/-- Two conditions in parentheses. -/
theorem spells_parens {l r joiner : Text} {nl nr : List Text} {kl kr : ℕ} (hl : Spells l nl kl)
    (hr : Spells r nr kr) (hj : joiner.all isPlain = true) (hne : joiner ≠ []) :
    Spells (['('] ++ l ++ joiner ++ r ++ [')']) (nl ++ nr) (kl + kr) := by
  have hboth := ((hl.join hr hj hne).after (s := ['(']) (by decide) (by decide)).before
    (s := [')']) (by decide) (by decide)
  simpa using hboth

/-- A predicate tree binds one value for each of its marks. -/
theorem toSql_spells (hq : d.UsesQuote .double) {p : Predicate K (Option V)}
    {whenEmpty : QueryError E} {r : Text × List (Option V)}
    (h : p.toSql whenEmpty (m.columnSqlOf keyOf d) = .ok r) :
    Spells r.1 (p.keys.flatMap (keyNames keyOf d)) r.2.length := by
  induction p generalizing r with
  | empty => cases h
  | comparison key op value =>
    obtain ⟨column, hcolumn, rfl⟩ := map_eq_ok.mp h
    have hmark := (columnSqlOf_eq hq hcolumn).join spells_mark (compOpText_plain op) (by simp)
    simpa [Predicate.keys] using hmark
  | inList key values =>
    rw [Predicate.toSql] at h
    rw [Predicate.keys]
    split at h
    · rename_i hempty
      obtain rfl := Except.ok.inj h
      rw [if_pos hempty]
      exact spells_lits rfl
    · rename_i hempty
      obtain ⟨column, hcolumn, rfl⟩ := map_eq_ok.mp h
      rw [if_neg hempty]
      have hall := ((columnSqlOf_eq hq hcolumn).join (spells_marks values)
        (s := [' ', 'I', 'N', ' ', '(']) (by decide) (by decide)).before (s := [')']) (by decide)
        (by decide)
      simpa using hall
  | nullCheck key negated =>
    obtain ⟨column, hcolumn, rfl⟩ := map_eq_ok.mp h
    have hname := columnSqlOf_eq hq hcolumn
    cases negated with
    | true =>
      have hcheck := hname.before (s := [' ', 'I', 'S', ' ', 'N', 'O', 'T', ' ', 'N', 'U', 'L', 'L'])
        (by decide) (by decide)
      simpa [Predicate.keys] using hcheck
    | false =>
      have hcheck := hname.before (s := [' ', 'I', 'S', ' ', 'N', 'U', 'L', 'L']) (by decide)
        (by decide)
      simpa [Predicate.keys] using hcheck
  | like key pattern =>
    obtain ⟨column, hcolumn, rfl⟩ := map_eq_ok.mp h
    have hmark := (columnSqlOf_eq hq hcolumn).join spells_mark
      (s := [' ', 'L', 'I', 'K', 'E', ' ']) (by decide) (by decide)
    simpa [Predicate.keys] using hmark
  | conjunction lhs rhs ihl ihr =>
    rw [Predicate.toSql] at h
    split at h
    · cases h
    · cases h
    · rename_i l r' hl hr
      obtain rfl := Except.ok.inj h
      have hboth := spells_parens (ihl hl) (ihr hr) and_plain (by decide)
      simpa [Predicate.keys] using hboth
  | disjunction lhs rhs ihl ihr =>
    rw [Predicate.toSql] at h
    split at h
    · cases h
    · cases h
    · rename_i l r' hl hr
      obtain rfl := Except.ok.inj h
      have hboth := spells_parens (ihl hl) (ihr hr) or_plain (by decide)
      simpa [Predicate.keys] using hboth

theorem whereSql_spells (hq : d.UsesQuote .double) {wheres : List (Predicate K (Option V))}
    {r : Text × List (Option V)}
    (h : (m.whereSql keyOf d wheres : Except (QueryError E) _) = .ok r) :
    Spells r.1 (wheres.flatMap fun p => p.keys.flatMap (keyNames keyOf d)) r.2.length := by
  obtain ⟨parts, hparts, hall⟩ := bind_eq_ok.mp h
  obtain rfl := Except.ok.inj hall
  have hjoined := spells_intercalate and_plain (by decide) Prod.fst
    (fun p : Predicate K (Option V) => p.keys.flatMap (keyNames keyOf d))
    (fun r : Text × List (Option V) => r.2.length)
    ((forall₂_of_mapM hparts).imp fun p r hr => toSql_spells hq hr)
  simpa [List.length_flatMap] using hjoined

/-- The condition of a statement that may go without, with what stands in front of it. -/
theorem optionalWhere_spells (hq : d.UsesQuote .double) {wheres : List (Predicate K (Option V))}
    {r : Text × List (Option V)} {a : Text} {na : List Text} {ka : ℕ} (ha : Spells a na ka)
    (h : (m.optionalWhere keyOf d wheres : Except (QueryError E) _) = .ok r) :
    Spells (a ++ r.1) (na ++ wheres.flatMap fun p => p.keys.flatMap (keyNames keyOf d))
      (ka + r.2.length) := by
  unfold EntityMeta.optionalWhere at h
  split at h
  · rename_i hempty
    obtain rfl := Except.ok.inj h
    rw [List.isEmpty_iff.mp hempty]
    simpa using ha
  · obtain ⟨condition, hcondition, hall⟩ := bind_eq_ok.mp h
    obtain rfl := Except.ok.inj hall
    have hjoined := ha.join (whereSql_spells hq hcondition)
      (s := [' ', 'W', 'H', 'E', 'R', 'E', ' ']) (by decide) (by decide)
    simpa using hjoined

theorem ordersSql_spells (hq : d.UsesQuote .double) {orders : List (K × Direction)} {text a : Text}
    {na : List Text} {ka : ℕ} (ha : Spells a na ka)
    (h : (m.ordersSql keyOf d orders : Except (QueryError E) _) = .ok text) :
    Spells (a ++ text) (na ++ orders.flatMap fun o => keyNames keyOf d o.1) ka := by
  unfold EntityMeta.ordersSql at h
  split at h
  · rename_i hempty
    obtain rfl := Except.ok.inj h
    rw [List.isEmpty_iff.mp hempty]
    simpa using ha
  · obtain ⟨parts, hparts, hall⟩ := bind_eq_ok.mp h
    obtain rfl := Except.ok.inj hall
    have hone : ∀ (o : K × Direction) text,
        (m.orderSql keyOf d o : Except (QueryError E) _) = .ok text →
        Spells text (keyNames keyOf d o.1) 0 := by
      intro o text ho
      obtain ⟨column, hcolumn, rfl⟩ := map_eq_ok.mp ho
      exact (columnSqlOf_eq hq hcolumn).before (by cases o.2 <;> decide) (by cases o.2 <;> decide)
    have hjoined := spells_intercalate comma_plain (by decide) (fun text : Text => text)
      (fun o : K × Direction => keyNames keyOf d o.1) (fun _ => 0)
      ((forall₂_of_mapM hparts).imp hone)
    have hall := ha.join hjoined (s := [' ', 'O', 'R', 'D', 'E', 'R', ' ', 'B', 'Y', ' '])
      (by decide) (by decide)
    simpa using hall

def statementNames (keyOf : m.Index → K) (d : Dialect) : CoreStatement K m → List Text
  | .select shape _ => m.allColumns.map (m.spelled d) ++ tableNames m d ++
      (shape.wheres.flatMap fun p => p.keys.flatMap (keyNames keyOf d)) ++
      shape.orders.flatMap fun o => keyNames keyOf d o.1
  | .count shape => tableNames m d ++ shape.wheres.flatMap fun p => p.keys.flatMap (keyNames keyOf d)
  | .update sets wheres => tableNames m d ++ (sets.flatMap fun a => keyNames keyOf d a.1) ++
      wheres.flatMap fun p => p.keys.flatMap (keyNames keyOf d)
  | .remove wheres => tableNames m d ++ wheres.flatMap fun p => p.keys.flatMap (keyNames keyOf d)
  | .insertRow _ => tableNames m d ++ m.allColumns.map (m.spelled d)
  | .updateRow setCols whereCols _ =>
    tableNames m d ++ setCols.map (m.spelled d) ++ whereCols.map (m.spelled d)
  | .deleteRow whereCols _ => tableNames m d ++ whereCols.map (m.spelled d)

theorem columns_spells (names : List Text) :
    Spells ([',', ' '].intercalate (names.map (delimited .double))) names 0 := by
  have hall : List.Forall₂ (fun i r => Spells (delimited .double r) [i] 0) names names :=
    List.forall₂_same.mpr fun name _ => spells_name name
  have hjoined := spells_intercalate comma_plain (by decide) (delimited .double)
    (fun name : Text => [name]) (fun _ => 0) hall
  simpa using hjoined

theorem placeholderGroup_spells (hq : d.UsesQuote .double) {cols : List m.Index} {sep text : Text}
    (hsep : sep.all isPlain = true) (hne : sep ≠ [])
    (h : (m.placeholderGroup d cols sep : Except (WriteError E) Text) = .ok text) :
    Spells text (cols.map (m.spelled d)) cols.length := by
  obtain ⟨texts, htexts, htext⟩ := bind_eq_ok.mp h
  obtain rfl := Except.ok.inj htext
  have hone : ∀ i : m.Index, Spells (delimited .double (m.spelled d i) ++ [' ', '=', ' ', '?'])
      [m.spelled d i] 1 := by
    intro i
    have hmark := (spells_name (m.spelled d i)).join spells_mark (s := [' ', '=', ' ']) (by decide)
      (by decide)
    simpa using hmark
  have hall : List.Forall₂ (fun i r : m.Index =>
      Spells (delimited .double (m.spelled d r) ++ [' ', '=', ' ', '?']) [m.spelled d i] 1)
      cols cols := List.forall₂_same.mpr fun i _ => hone i
  have hjoined := spells_intercalate hsep hne
    (fun i : m.Index => delimited .double (m.spelled d i) ++ [' ', '=', ' ', '?'])
    (fun i : m.Index => [m.spelled d i]) (fun _ => 1) hall
  rw [columns_eq hq htexts, List.map_map]
  have hnames : (cols.flatMap fun i => [m.spelled d i]) = cols.map (m.spelled d) :=
    List.flatMap_pure_eq_map (m.spelled d) cols
  have hsum : (cols.map fun _ => 1).sum = cols.length := by simp
  rw [hnames, hsum] at hjoined
  exact hjoined

theorem numeral_plain (n : ℕ) : (numeral n).all isPlain = true := by
  rw [List.all_eq_true]
  intro c hc
  have hdigit := isDigit_of_mem_numeral hc
  simp [isPlain, Char.isAlphanum, hdigit]

theorem pagination_plain (lim : Option ℕ) (offset : ℕ) :
    (d.pagination lim offset).all isPlain = true := by
  unfold Dialect.pagination
  split
  · rfl
  · split
    · cases lim with
      | none => split_ifs <;> simp [numeral_plain, isPlain]
      | some n => split_ifs <;> simp_all [numeral_plain, isPlain]
    · cases lim with
      | none => split_ifs <;> simp [numeral_plain, isPlain]
      | some n => split_ifs <;> simp [numeral_plain, isPlain]

theorem renderSelect_spells (hq : d.UsesQuote .double) {shape : QueryShape K V} {lim : Option ℕ}
    {r : Text × List (Option V)}
    (h : (m.renderSelect keyOf d shape lim : Except (QueryError E) _) = .ok r) :
    Spells r.1 (statementNames keyOf d (.select shape lim)) r.2.length := by
  obtain ⟨columns, hcolumns, h⟩ := bind_eq_ok.mp h
  obtain ⟨table, htable, h⟩ := bind_eq_ok.mp h
  obtain ⟨condition, hcondition, h⟩ := bind_eq_ok.mp h
  obtain ⟨orders, horders, h⟩ := bind_eq_ok.mp h
  obtain rfl := Except.ok.inj h
  have hlist : columns = (m.allColumns.map (m.spelled d)).map (delimited .double) := by
    rw [List.map_map]
    exact eq_map_of_forall₂ ((forall₂_of_mapM hcolumns).imp fun i r hr =>
      columnSql_eq hq (mapError_eq_ok.mp hr))
  have hhead := (columns_spells (m.allColumns.map (m.spelled d))).after
    (s := ['S', 'E', 'L', 'E', 'C', 'T', ' ']) (by decide) (by decide)
  rw [← hlist] at hhead
  have hfrom := hhead.join (tableSql_spells hq (mapError_eq_ok.mp htable))
    (s := [' ', 'F', 'R', 'O', 'M', ' ']) (by decide) (by decide)
  have hall := ordersSql_spells hq (optionalWhere_spells hq hfrom hcondition) horders
  rw [Nat.zero_add] at hall
  dsimp only
  by_cases hempty : d.pagination lim shape.offset = []
  · rw [hempty, List.append_nil]
    exact hall
  · exact hall.before (pagination_plain lim shape.offset) hempty

theorem renderCount_spells (hq : d.UsesQuote .double) {shape : QueryShape K V}
    {r : Text × List (Option V)}
    (h : (m.renderCount keyOf d shape : Except (QueryError E) _) = .ok r) :
    Spells r.1 (statementNames keyOf d (.count shape)) r.2.length := by
  obtain ⟨table, htable, h⟩ := bind_eq_ok.mp h
  obtain ⟨condition, hcondition, h⟩ := bind_eq_ok.mp h
  obtain rfl := Except.ok.inj h
  have hhead := (tableSql_spells hq (mapError_eq_ok.mp htable)).after
    (s := ['S', 'E', 'L', 'E', 'C', 'T', ' ', 'C', 'O', 'U', 'N', 'T', '(', '*', ')', ' ', 'F', 'R',
      'O', 'M', ' ']) (by decide) (by decide)
  have hall := optionalWhere_spells hq hhead hcondition
  rw [Nat.zero_add] at hall
  exact hall

theorem typedUpdate_spells (hq : d.UsesQuote .double) {sets : List (K × Option V)}
    {wheres : List (Predicate K (Option V))} {r : Text × List (Option V)}
    (h : (m.typedUpdate keyOf d sets wheres : Except (QueryError E) _) = .ok r) :
    Spells r.1 (statementNames keyOf d (.update sets wheres)) r.2.length := by
  unfold EntityMeta.typedUpdate at h
  split at h
  · cases h
  · split at h
    · cases h
    · obtain ⟨table, htable, h⟩ := bind_eq_ok.mp h
      obtain ⟨parts, hparts, h⟩ := bind_eq_ok.mp h
      obtain ⟨condition, hcondition, h⟩ := bind_eq_ok.mp h
      obtain rfl := Except.ok.inj h
      have hone : ∀ (a : K × Option V) text,
          (m.setSql keyOf d a : Except (QueryError E) _) = .ok text →
          Spells text (keyNames keyOf d a.1) 1 := by
        intro a text ha
        obtain ⟨column, hcolumn, rfl⟩ := map_eq_ok.mp ha
        have hmark := (columnSqlOf_eq hq hcolumn).join spells_mark (s := [' ', '=', ' '])
          (by decide) (by decide)
        simpa using hmark
      have hsets := spells_intercalate comma_plain (by decide) (fun text : Text => text)
        (fun a : K × Option V => keyNames keyOf d a.1) (fun _ => 1)
        ((forall₂_of_mapM hparts).imp hone)
      have hhead := (tableSql_spells hq (mapError_eq_ok.mp htable)).after
        (s := ['U', 'P', 'D', 'A', 'T', 'E', ' ']) (by decide) (by decide)
      have hset := hhead.join hsets (s := [' ', 'S', 'E', 'T', ' ']) (by decide) (by decide)
      have hall := hset.join (whereSql_spells hq hcondition)
        (s := [' ', 'W', 'H', 'E', 'R', 'E', ' ']) (by decide) (by decide)
      have hlen : parts.length = sets.length := (forall₂_of_mapM hparts).length_eq.symm
      simpa [statementNames, hlen] using hall

theorem typedRemove_spells (hq : d.UsesQuote .double) {wheres : List (Predicate K (Option V))}
    {r : Text × List (Option V)}
    (h : (m.typedRemove keyOf d wheres : Except (QueryError E) _) = .ok r) :
    Spells r.1 (statementNames keyOf d (.remove wheres)) r.2.length := by
  unfold EntityMeta.typedRemove at h
  split at h
  · cases h
  · obtain ⟨condition, hcondition, h⟩ := bind_eq_ok.mp h
    obtain ⟨table, htable, h⟩ := bind_eq_ok.mp h
    obtain rfl := Except.ok.inj h
    have hhead := (tableSql_spells hq (mapError_eq_ok.mp htable)).after
      (s := ['D', 'E', 'L', 'E', 'T', 'E', ' ', 'F', 'R', 'O', 'M', ' ']) (by decide) (by decide)
    have hall := hhead.join (whereSql_spells hq hcondition)
      (s := [' ', 'W', 'H', 'E', 'R', 'E', ' ']) (by decide) (by decide)
    rw [Nat.zero_add] at hall
    exact hall

/-- The marks of the row of values; the first one is written whatever the columns are. -/
theorem values_spells (n : ℕ) :
    Spells (['?'] ++ (List.replicate n [',', ' ', '?']).flatten) [] (n + 1) := by
  have hmarks := spells_marks (List.replicate (n + 1) ())
  rw [List.length_replicate] at hmarks
  have htext : [',', ' '].intercalate ((List.replicate (n + 1) ()).map fun _ => ['?']) =
      ['?'] ++ (List.replicate n [',', ' ', '?']).flatten := by
    clear hmarks
    induction n with
    | zero => rfl
    | succ n ih =>
      have hsplit : [',', ' '].intercalate ((List.replicate (n + 2) ()).map fun _ => ['?']) =
          ['?', ',', ' '] ++
            [',', ' '].intercalate ((List.replicate (n + 1) ()).map fun _ => ['?']) := by
        simp [List.replicate_succ, List.intercalate]
      rw [hsplit, ih, List.replicate_succ, List.flatten_cons]
      simp
  rw [htext] at hmarks
  exact hmarks

theorem buildInsertSql_spells (hq : d.UsesQuote .double) {sql : Text}
    (h : (m.buildInsertSql d : Except (WriteError E) Text) = .ok sql) :
    Spells sql (tableNames m d ++ m.allColumns.map (m.spelled d)) (m.columns.length - 1 + 1) := by
  obtain ⟨table, htable, h⟩ := bind_eq_ok.mp h
  obtain ⟨columns, hcolumns, h⟩ := bind_eq_ok.mp h
  obtain rfl := Except.ok.inj h
  have hhead := (tableSql_spells hq htable).after
    (s := ['I', 'N', 'S', 'E', 'R', 'T', ' ', 'I', 'N', 'T', 'O', ' ']) (by decide) (by decide)
  have hlist := hhead.join (columns_spells (m.allColumns.map (m.spelled d))) (s := [' ', '('])
    (by decide) (by decide)
  have hvalues := hlist.join (values_spells (m.columns.length - 1))
    (s := [')', ' ', 'V', 'A', 'L', 'U', 'E', 'S', ' ', '(']) (by decide) (by decide)
  have hall := hvalues.before (s := [')']) (by decide) (by decide)
  rw [columns_eq hq hcolumns]
  simpa [Function.comp_def] using hall

theorem updateStatement_spells (hq : d.UsesQuote .double) {setCols whereCols : List m.Index}
    {sql : Text} (row : R)
    (h : (m.updateStatement d setCols whereCols : Except (WriteError E) Text) = .ok sql) :
    Spells sql (statementNames keyOf d (.updateRow setCols whereCols row))
      (setCols.length + whereCols.length) := by
  obtain ⟨table, htable, h⟩ := bind_eq_ok.mp h
  obtain ⟨sets, hsets, h⟩ := bind_eq_ok.mp h
  obtain ⟨wheres, hwheres, h⟩ := bind_eq_ok.mp h
  obtain rfl := Except.ok.inj h
  have hhead := (tableSql_spells hq htable).after (s := ['U', 'P', 'D', 'A', 'T', 'E', ' '])
    (by decide) (by decide)
  have hset := hhead.join (placeholderGroup_spells hq comma_plain (by decide) hsets)
    (s := [' ', 'S', 'E', 'T', ' ']) (by decide) (by decide)
  have hall := hset.join (placeholderGroup_spells hq and_plain (by decide) hwheres)
    (s := [' ', 'W', 'H', 'E', 'R', 'E', ' ']) (by decide) (by decide)
  rw [Nat.zero_add] at hall
  exact hall

theorem deleteStatement_spells (hq : d.UsesQuote .double) {whereCols : List m.Index} {sql : Text}
    (row : R) (h : (m.deleteStatement d whereCols : Except (WriteError E) Text) = .ok sql) :
    Spells sql (statementNames keyOf d (.deleteRow whereCols row)) whereCols.length := by
  obtain ⟨table, htable, h⟩ := bind_eq_ok.mp h
  obtain ⟨wheres, hwheres, h⟩ := bind_eq_ok.mp h
  obtain rfl := Except.ok.inj h
  have hhead := (tableSql_spells hq htable).after
    (s := ['D', 'E', 'L', 'E', 'T', 'E', ' ', 'F', 'R', 'O', 'M', ' ']) (by decide) (by decide)
  have hall := hhead.join (placeholderGroup_spells hq and_plain (by decide) hwheres)
    (s := [' ', 'W', 'H', 'E', 'R', 'E', ' ']) (by decide) (by decide)
  rw [Nat.zero_add] at hall
  exact hall

/-- Both backends number the marks of a spelled text and copy the rest. -/
theorem rewritten_of_sound {segs : List Segment} (h : Sound segs) :
    Libpq.rewritePlaceholders (spell segs) = .ok (numbered '$' segs, segmentMarks segs) ∧
      Oracle.rewritePlaceholders (spell segs) = .ok (numbered ':' segs, segmentMarks segs) := by
  constructor
  · rw [Libpq.rewritePlaceholders, libpq_read_spell h]
    rfl
  · rw [Oracle.rewritePlaceholders, oracle_read_spell h]
    rfl

/-- A statement is read by both backends as it was put together: its names come out as they are
and stand for the names of the mapping, and its marks are numbered, one for each value. -/
def Survives (E : Type*) (keyOf : m.Index → K) (d : Dialect) (st : CoreStatement K m) : Prop :=
  ∀ sql bound, (st.render keyOf d : Except (QueryError E) _) = .ok (sql, bound) →
    ∃ segs, Sound segs ∧ spell segs = sql ∧ names segs = statementNames keyOf d st ∧
      (∀ name ∈ names segs, unquote (delimited .double name) = some name) ∧
      Libpq.rewritePlaceholders sql = .ok (numbered '$' segs, bound.length) ∧
      Oracle.rewritePlaceholders sql = .ok (numbered ':' segs, bound.length)

/-- An INSERT through a mapping without columns. -/
def InsertsNothing (E : Type*) (d : Dialect) (st : CoreStatement K m) : Prop :=
  ∃ row, st = .insertRow row ∧ m.columns = [] ∧
    ∃ table, (m.tableSql d : Except (WriteError E) Text) = .ok table

theorem survives_of_spells {st : CoreStatement K m}
    (h : ∀ sql bound, (st.render keyOf d : Except (QueryError E) _) = .ok (sql, bound) →
      Spells sql (statementNames keyOf d st) bound.length) : Survives E keyOf d st := by
  intro sql bound hrender
  obtain ⟨segs, hsound, hspell, hnames, hmarks⟩ := h sql bound hrender
  have hrewritten := rewritten_of_sound hsound
  rw [hspell, hmarks] at hrewritten
  exact ⟨segs, hsound, hspell, hnames, fun name _ => unquote_delimited name, hrewritten⟩

theorem extractRow_length (cols : List m.Index) (row : R) :
    (m.extractRow cols row).length = cols.length := List.length_map _

theorem allColumns_length : m.allColumns.length = m.columns.length := by
  simp [EntityMeta.allColumns]

/-- What the two rewritings make of the INSERT of a mapping without columns. -/
theorem not_survives_insert (hq : d.UsesQuote .double) {row : R} (hcolumns : m.columns = [])
    {table : Text} (htable : (m.tableSql d : Except (WriteError E) Text) = .ok table) :
    ¬ Survives E keyOf d (.insertRow row) := by
  have hall : m.allColumns = [] := by
    rw [← List.length_eq_zero_iff, allColumns_length, hcolumns, List.length_nil]
  obtain ⟨sql, hsql⟩ : ∃ sql, (m.buildInsertSql d : Except (WriteError E) Text) = .ok sql := by
    unfold EntityMeta.buildInsertSql
    rw [htable, hall]
    exact ⟨_, rfl⟩
  intro hsurvives
  have hrender : ((CoreStatement.insertRow row).render keyOf d : Except (QueryError E) _) =
      .ok (sql, m.extractRow m.allColumns row) := by
    rw [CoreStatement.render, hsql]
    rfl
  obtain ⟨_, _, _, _, _, hcount, _⟩ := hsurvives sql _ hrender
  obtain ⟨segs, hsound, hspell, _, hmarks⟩ := buildInsertSql_spells hq hsql
  have hone := (rewritten_of_sound hsound).1
  rw [hspell, hmarks, hcount, extractRow_length, hall, hcolumns] at hone
  exact absurd (congrArg Prod.snd (Except.ok.inj hone)) (by simp)

/-- Exactly the INSERT of a mapping without columns comes out with a placeholder too many. -/
theorem core_text_survives_rewriting (hq : d.UsesQuote .double) (st : CoreStatement K m) :
    Survives E keyOf d st ↔ ¬ InsertsNothing E d st := by
  constructor
  · rintro hsurvives ⟨row, rfl, hcolumns, table, htable⟩
    exact not_survives_insert hq hcolumns htable hsurvives
  · intro hsome
    apply survives_of_spells
    intro sql bound hrender
    cases st with
    | select shape lim => exact renderSelect_spells hq hrender
    | count shape => exact renderCount_spells hq hrender
    | update sets wheres => exact typedUpdate_spells hq hrender
    | remove wheres => exact typedRemove_spells hq hrender
    | insertRow row =>
      obtain ⟨sql', hsql, heq⟩ := map_eq_ok.mp hrender
      obtain ⟨rfl, rfl⟩ := Prod.ext_iff.mp heq
      have hspells := buildInsertSql_spells hq (mapError_eq_ok.mp hsql)
      have hpos : 0 < m.columns.length := by
        rw [List.length_pos_iff]
        intro hcolumns
        obtain ⟨table, htable, _⟩ := bind_eq_ok.mp (mapError_eq_ok.mp hsql)
        exact hsome ⟨row, rfl, hcolumns, table, htable⟩
      rw [Nat.sub_add_cancel hpos] at hspells
      rw [extractRow_length, allColumns_length]
      exact hspells
    | updateRow setCols whereCols row =>
      obtain ⟨sql', hsql, heq⟩ := map_eq_ok.mp hrender
      obtain ⟨rfl, rfl⟩ := Prod.ext_iff.mp heq
      rw [extractRow_length, List.length_append]
      exact updateStatement_spells hq row (mapError_eq_ok.mp hsql)
    | deleteRow whereCols row =>
      obtain ⟨sql', hsql, heq⟩ := map_eq_ok.mp hrender
      obtain ⟨rfl, rfl⟩ := Prod.ext_iff.mp heq
      rw [extractRow_length]
      exact deleteStatement_spells hq row (mapError_eq_ok.mp hsql)

end

private theorem noSize (_ : BufferType.int64.isVar = false) (value : ℕ) :
    (fun _ : ℕ => 0) value = 0 := rfl

/-- A mapping of one column; the names have a mark and a quote in them. -/
def marked : EntityMeta ℕ ℕ :=
  ⟨['t', '?'], [⟨['a', '"', '?'], true, .int64, some, fun _ => 0, noSize⟩], none⟩

theorem marked_select_survives :
    ¬ InsertsNothing Unit (sqlDialect [] none)
        (.select ⟨[.comparison 0 .eq (some 5)], [], 0⟩ (some 10) : CoreStatement ℕ marked) ∧
      Survives Unit (fun _ : marked.Index => 0) (sqlDialect [] none)
        (.select ⟨[.comparison 0 .eq (some 5)], [], 0⟩ (some 10)) := by
  have hselect : ¬ InsertsNothing Unit (sqlDialect [] none)
      (.select ⟨[.comparison 0 .eq (some 5)], [], 0⟩ (some 10) : CoreStatement ℕ marked) := by
    rintro ⟨row, hrow, _⟩
    cases hrow
  exact ⟨hselect, (core_text_survives_rewriting (sqlDialect_usesQuote [] none) _).mpr hselect⟩

/-- A mapping to which no column has been added. -/
def columnless : EntityMeta ℕ ℕ := ⟨['t'], [], none⟩

/-- `INSERT INTO "t" () VALUES (?)` has a placeholder and no value. -/
theorem columnless_insert_counts_one :
    ¬ Survives Unit (fun _ : columnless.Index => 0) (sqlDialect [] none) (.insertRow 7) :=
  not_survives_insert (sqlDialect_usesQuote [] none) rfl rfl

end Uniorm.Backend
