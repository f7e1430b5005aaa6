import Mathlib.Data.Char
import Mathlib.Data.List.Lex
import Uniorm.Foundation.Action
import Uniorm.Foundation.Sorted
import Uniorm.Orm.Mapping
import Uniorm.Schema.Meta

/-! # Matching declared names with a catalog

A declared name stands for the catalog name that is spelled as it is, or else for
the only one that is spelled as it is but for case. The names a catalog lists are
sorted and taken once each, so what is found depends on which names there are and
not on how they are listed.
-/
namespace Uniorm.Orm

open Foundation Sql Builder Schema

universe u v

/-- What mapping calls and the resolution throw; `backend` is what the connection throws. -/
inductive MappingError (E : Type u) where
  | alreadyRegistered
  | resolvedMapping
  | notConnected
  | unsupported (dbmsName : Text)
  | explicitCatalog
  | currentDatabase
  | emptySchema
  | unnamedTable (scope : Text)
  | unnamedColumn (table : Text)
  | conflictingColumn (column : Text)
  | notFound (kind owner declared : Text)
  | ambiguous (kind owner declared : Text) (candidates : List Text)
  | sharedColumn (column : Text)
  | backend (error : E)

/-- The texts of the errors thrown. The first one goes on with the name `typeid` gives the type. -/
def MappingError.what {E : Type u} : MappingError E → Option Text
  | alreadyRegistered => some "entity already registered: ".toList
  | resolvedMapping => some "cannot modify a resolved entity mapping".toList
  | notConnected => some "orm: not connected; call connect() first".toList
  | unsupported dbmsName => some ("identifier resolution is unsupported for ".toList ++ dbmsName)
  | explicitCatalog => some
    "identifier resolution requires an explicit catalog and names without NUL bytes".toList
  | currentDatabase => some
    ("PostgreSQL identifier resolution requires the current database and an explicit " ++
      "schema").toList
  | emptySchema => some
    "MySQL identifier resolution requires a database and an empty schema".toList
  | unnamedTable scope => some ("unnamed catalog table in ".toList ++ scope)
  | unnamedColumn table => some ("unnamed catalog column in ".toList ++ table)
  | conflictingColumn column => some ("conflicting catalog column: ".toList ++ column)
  | notFound kind owner declared =>
    some (kind ++ " not found in ".toList ++ owner ++ ": ".toList ++ declared)
  | ambiguous kind owner declared candidates =>
    some ("ambiguous ".toList ++ kind ++ " in ".toList ++ owner ++ ": ".toList ++ declared ++
      " (candidates: ".toList ++ [',', ' '].intercalate candidates ++ [')'])
  | sharedColumn column => some ("multiple mapped columns resolve to ".toList ++ column)
  | backend _ => none

variable {E : Type u}

def qualifiedName (table : TableRef) : Text :=
  let name := table.catalog
  let name := if table.schema = [] then name
    else (if name = [] then name else name ++ ['.']) ++ table.schema
  if table.name = [] then name else (if name = [] then name else name ++ ['.']) ++ table.name

def scanNames (declared : Text) : List Text → List Text → Text ⊕ List Text
  | [], candidates => .inr candidates
  | name :: names, candidates =>
    if name = declared then .inl name
    else if foldLower name = foldLower declared then scanNames declared names (candidates ++ [name])
    else scanNames declared names candidates

def resolveIdentifier (names : List Text) (declared kind owner : Text) :
    Except (MappingError E) Text :=
  match scanNames declared names [] with
  | .inl name => .ok name
  | .inr candidates =>
    match sortUnique id candidates with
    | [] => .error (.notFound kind owner declared)
    | [name] => .ok name
    | several => .error (.ambiguous kind owner declared several)

def StandsFor (names : List Text) (declared name : Text) : Prop :=
  (declared ∈ names ∧ name = declared) ∨
  (declared ∉ names ∧ name ∈ names ∧ foldLower name = foldLower declared ∧
    ∀ other ∈ names, foldLower other = foldLower declared → other = name)

theorem StandsFor.congr {names names' : List Text} (h : ∀ n, n ∈ names ↔ n ∈ names')
    {declared name : Text} : StandsFor names declared name ↔ StandsFor names' declared name := by
  simp only [StandsFor, h]

theorem scanNames_eq (declared : Text) (names candidates : List Text) :
    scanNames declared names candidates = if declared ∈ names then .inl declared
      else .inr (candidates ++ names.filter fun n => foldLower n = foldLower declared) := by
  induction names generalizing candidates with
  | nil => simp [scanNames]
  | cons name names ih =>
    rw [scanNames]
    by_cases hname : name = declared
    · rw [if_pos hname, if_pos (by simp [hname]), hname]
    · have hmem : declared ∈ name :: names ↔ declared ∈ names := by
        simp [List.mem_cons, Ne.symm hname]
      rw [if_neg hname, ih, ih]
      simp only [hmem]
      by_cases hfold : foldLower name = foldLower declared
      · rw [if_pos hfold, List.filter_cons_of_pos (by simpa using hfold), List.append_assoc,
          List.singleton_append]
      · rw [if_neg hfold, List.filter_cons_of_neg (by simpa using hfold)]

theorem resolveIdentifier_ok_iff {names : List Text} {declared kind owner name : Text} :
    (resolveIdentifier names declared kind owner : Except (MappingError E) Text) = .ok name ↔
      StandsFor names declared name := by
  rw [resolveIdentifier, scanNames_eq, List.nil_append]
  by_cases hexact : declared ∈ names
  · rw [if_pos hexact]
    constructor
    · intro h
      exact Or.inl ⟨hexact, (Except.ok.inj h).symm⟩
    · rintro (⟨_, rfl⟩ | ⟨hnot, _⟩)
      · rfl
      · exact absurd hexact hnot
  · rw [if_neg hexact]
    have hmem : ∀ n, n ∈ sortUnique id (names.filter fun n => foldLower n = foldLower declared) ↔
        n ∈ names ∧ foldLower n = foldLower declared := by
      intro n
      rw [mem_sortUnique, List.mem_filter, decide_eq_true_iff]
    have hnodup : (sortUnique id
        (names.filter fun n => foldLower n = foldLower declared)).Nodup := by
      have hsorted := pairwise_map_sortUnique id
        (names.filter fun n => foldLower n = foldLower declared)
      rw [List.map_id] at hsorted
      exact hsorted.imp ne_of_lt
    dsimp only
    generalize sortUnique id (names.filter fun n => foldLower n = foldLower declared) = found
      at hmem hnodup
    cases found with
    | nil =>
      constructor
      · intro h
        cases h
      · rintro (⟨hmem', _⟩ | ⟨_, hlisted, hfold, _⟩)
        · exact absurd hmem' hexact
        · exact absurd ((hmem name).mpr ⟨hlisted, hfold⟩) List.not_mem_nil
    | cons first rest =>
      cases rest with
      | nil =>
        constructor
        · intro h
          obtain rfl := Except.ok.inj h
          obtain ⟨hlisted, hfold⟩ := (hmem first).mp List.mem_cons_self
          exact Or.inr ⟨hexact, hlisted, hfold, fun other ho hof =>
            List.mem_singleton.mp ((hmem other).mpr ⟨ho, hof⟩)⟩
        · rintro (⟨hmem', _⟩ | ⟨_, hlisted, hfold, _⟩)
          · exact absurd hmem' hexact
          · rw [List.mem_singleton.mp ((hmem name).mpr ⟨hlisted, hfold⟩)]
      | cons second rest =>
        constructor
        · intro h
          cases h
        · rintro (⟨hmem', _⟩ | ⟨_, hlisted, hfold, hunique⟩)
          · exact absurd hmem' hexact
          · obtain ⟨hl1, hf1⟩ := (hmem first).mp List.mem_cons_self
            obtain ⟨hl2, hf2⟩ := (hmem second).mp (List.mem_cons_of_mem _ List.mem_cons_self)
            have hsame : first = second :=
              (hunique first hl1 hf1).trans (hunique second hl2 hf2).symm
            exact absurd (List.mem_cons.mpr (Or.inl hsame)) (List.nodup_cons.mp hnodup).1

def checkRows (table : TableRef) : Option ColumnRow → List ColumnRow → Except (MappingError E) Unit
  | _, [] => .ok ()
  | previous, column :: columns =>
    if column.shape.name = [] then .error (.unnamedColumn (qualifiedName table))
    else if previous.any fun p => p.shape.name = column.shape.name && p ≠ column then
      .error (.conflictingColumn (qualifiedName table ++ ['.'] ++ column.shape.name))
    else checkRows table (some column) columns

def exactColumns (md : SchemaMeta E) (table : TableRef) :
    Except (MappingError E) (List ColumnRow) := do
  let columns ← (md.exactTableColumns table).mapError .backend
  checkRows table none (columns.insertionSort fun a b => a.shape.name ≤ b.shape.name)
  -- the sorted rows, one of each name
  pure (sortUnique (fun row => row.shape.name) columns)

structure Regular (rows : List ColumnRow) : Prop where
  named : ∀ row ∈ rows, row.shape.name ≠ []
  agree : ∀ row ∈ rows, ∀ row' ∈ rows, row.shape.name = row'.shape.name → row = row'

theorem Regular.congr {rows rows' : List ColumnRow} (h : ∀ row, row ∈ rows ↔ row ∈ rows') :
    Regular rows ↔ Regular rows' := by
  constructor
  · intro hregular
    exact ⟨fun row hrow => hregular.named row ((h row).mpr hrow), fun row hrow row' hrow' =>
      hregular.agree row ((h row).mpr hrow) row' ((h row').mpr hrow')⟩
  · intro hregular
    exact ⟨fun row hrow => hregular.named row ((h row).mp hrow), fun row hrow row' hrow' =>
      hregular.agree row ((h row).mp hrow) row' ((h row').mp hrow')⟩

theorem checkRows_ok_iff (table : TableRef) (previous : Option ColumnRow)
    (rows : List ColumnRow) :
    (checkRows table previous rows : Except (MappingError E) Unit) = .ok () ↔
      (∀ row ∈ rows, row.shape.name ≠ []) ∧
        (previous.toList ++ rows).IsChain fun a b => a.shape.name = b.shape.name → a = b := by
  induction rows generalizing previous with
  | nil => cases previous <;> simp [checkRows]
  | cons row rows ih =>
    rw [checkRows]
    by_cases hname : row.shape.name = []
    · simp [hname]
    · rw [if_neg hname]
      cases previous with
      | none => simp [ih, hname]
      | some p =>
        by_cases hconflict : p.shape.name = row.shape.name ∧ p ≠ row
        · simp [hconflict.1, hconflict.2]
        · have hagree : p.shape.name = row.shape.name → p = row := by
            intro heq
            by_contra hne
            exact hconflict ⟨heq, hne⟩
          have hany : (some p).any (fun p => p.shape.name = row.shape.name && p ≠ row) = false := by
            simpa using hagree
          rw [hany, if_neg Bool.false_ne_true, ih]
          simp only [Option.toList_some, List.singleton_append, List.isChain_cons_cons,
            List.forall_mem_cons]
          tauto

/-- Sorted rows pass when all of them agree, not only neighbours. -/
theorem checkRows_sorted (table : TableRef) (rows : List ColumnRow) :
    (checkRows table none (rows.insertionSort fun a b => a.shape.name ≤ b.shape.name) :
      Except (MappingError E) Unit) = .ok () ↔ Regular rows := by
  have hmem := fun row => (rows.perm_insertionSort fun a b => a.shape.name ≤ b.shape.name).mem_iff
    (a := row)
  have hsorted := List.pairwise_insertionSort (fun a b : ColumnRow => a.shape.name ≤ b.shape.name)
    rows
  rw [checkRows_ok_iff, ← Regular.congr hmem]
  generalize (rows.insertionSort fun a b => a.shape.name ≤ b.shape.name) = sorted at hsorted
  constructor
  · rintro ⟨hnamed, hchain⟩
    have hboth : sorted.IsChain fun a b : ColumnRow =>
        a.shape.name ≤ b.shape.name ∧ (a.shape.name = b.shape.name → a = b) := by
      rw [List.isChain_iff_getElem]
      exact fun i hi => ⟨List.isChain_iff_getElem.mp hsorted.isChain i hi,
        List.isChain_iff_getElem.mp hchain i hi⟩
    have htrans : IsTrans ColumnRow fun a b =>
        a.shape.name ≤ b.shape.name ∧ (a.shape.name = b.shape.name → a = b) := by
      constructor
      rintro a b c ⟨hab, hab'⟩ ⟨hbc, hbc'⟩
      refine ⟨hab.trans hbc, fun hac => ?_⟩
      have hsame : a.shape.name = b.shape.name := le_antisymm hab (hac ▸ hbc)
      exact (hab' hsame).trans (hbc' (hsame.symm.trans hac))
    have hsymm : Std.Symm fun a b : ColumnRow => a.shape.name = b.shape.name → a = b :=
      ⟨fun a b hab heq => (hab heq.symm).symm⟩
    have hpairs : sorted.Pairwise fun a b : ColumnRow => a.shape.name = b.shape.name → a = b :=
      (List.isChain_iff_pairwise.mp hboth).imp And.right
    exact ⟨hnamed, fun row hrow row' hrow' =>
      hpairs.forall_of_forall (fun _ _ _ => rfl) hrow hrow'⟩
  · intro hregular
    exact ⟨hregular.named, (List.pairwise_of_forall_mem_list hregular.agree).isChain⟩

theorem exactColumns_ok_iff {md : SchemaMeta E} {table : TableRef} {columns : List ColumnRow} :
    exactColumns md table = .ok columns ↔ ∃ rows, md.exactTableColumns table = .ok rows ∧
      Regular rows ∧ columns = sortUnique (fun row => row.shape.name) rows := by
  rw [exactColumns, bind_eq_ok]
  constructor
  · rintro ⟨rows, hrows, hmore⟩
    obtain ⟨_, hcheck, hall⟩ := bind_eq_ok.mp hmore
    exact ⟨rows, mapError_eq_ok.mp hrows, (checkRows_sorted table rows).mp hcheck,
      (Except.ok.inj hall).symm⟩
  · rintro ⟨rows, hrows, hregular, rfl⟩
    exact ⟨rows, mapError_eq_ok.mpr hrows,
      bind_eq_ok.mpr ⟨(), (checkRows_sorted table rows).mpr hregular, rfl⟩⟩

/-- `identifier_catalog`: the names of the tables in the scope that was asked for. -/
structure IdentifierCatalog where
  catalog : Text
  schema : Text
  tables : List Text

/-- What `columns_` holds. -/
abbrev ColumnCache := List (Text × List ColumnRow)

def scopeTables (catalog schema : Text) : List TableRow → Except (MappingError E) (List Text)
  | [] => .ok []
  | row :: rows =>
    if row.catalog = catalog ∧ row.schema = schema then
      if row.name = [] then .error (.unnamedTable (qualifiedName ⟨catalog, schema, []⟩))
      else (scopeTables catalog schema rows).map (row.name :: ·)
    else scopeTables catalog schema rows

namespace IdentifierCatalog
variable {R : Type v} {V : Type*} (md : SchemaMeta E) (cat : IdentifierCatalog)

def read (catalog schema : Text) : Except (MappingError E) IdentifierCatalog := do
  let rows ← (md.exactTables catalog schema).mapError .backend
  let tables ← scopeTables catalog schema rows
  pure ⟨catalog, schema, sortUnique id tables⟩

def columnsOf (cache : ColumnCache) (name : Text) :
    Except (MappingError E) (List ColumnRow × ColumnCache) :=
  match cache.lookup name with
  | some rows => .ok (rows, cache)
  | none => (exactColumns md ⟨cat.catalog, cat.schema, name⟩).map fun rows =>
      (rows, (name, rows) :: cache)

def assignColumns (names : List Text) (owner : Text) (assigned : List Text) :
    List Text → Except (MappingError E) (List Text)
  | [] => .ok []
  | declared :: more => do
    let name ← resolveIdentifier names declared "column".toList owner
    if assigned.contains name then .error (.sharedColumn (owner ++ ['.'] ++ name))
    else do
      let columns ← assignColumns names owner (name :: assigned) more
      pure (name :: columns)

def resolve (cache : ColumnCache) (m : EntityMeta R V) :
    Except (MappingError E) (Resolution × ColumnCache) := do
  let name ← resolveIdentifier cat.tables m.table "table".toList
    (qualifiedName ⟨cat.catalog, cat.schema, []⟩)
  if m.columns = [] then pure (⟨cat.catalog, cat.schema, name, []⟩, cache)
  else do
    let (rows, cache) ← cat.columnsOf md cache name
    let columns ← assignColumns (rows.map fun row => row.shape.name)
      (qualifiedName ⟨cat.catalog, cat.schema, name⟩) [] (m.columns.map Column.column)
    pure (⟨cat.catalog, cat.schema, name, columns⟩, cache)

def resolveAll (cache : ColumnCache) :
    List (EntityMeta R V) → Except (MappingError E) (List Resolution)
  | [] => .ok []
  | m :: ms => do
    let (resolution, cache) ← cat.resolve md cache m
    let resolutions ← resolveAll cache ms
    pure (resolution :: resolutions)

end IdentifierCatalog

def scopeNames (catalog schema : Text) (rows : List TableRow) : List Text :=
  (rows.filter fun row => row.catalog = catalog && row.schema = schema).map TableRow.name

theorem mem_scopeNames {catalog schema name : Text} {rows : List TableRow} :
    name ∈ scopeNames catalog schema rows ↔ (⟨catalog, schema, name⟩ : TableRow) ∈ rows := by
  rw [scopeNames, List.mem_map]
  constructor
  · rintro ⟨row, hrow, rfl⟩
    obtain ⟨hmem, hscope⟩ := List.mem_filter.mp hrow
    obtain ⟨hcatalog, hschema⟩ := Bool.and_eq_true_iff.mp hscope
    rw [← of_decide_eq_true hcatalog, ← of_decide_eq_true hschema]
    exact hmem
  · intro h
    exact ⟨_, List.mem_filter.mpr ⟨h, by simp⟩, rfl⟩

theorem scopeTables_ok_iff {catalog schema : Text} {rows : List TableRow} {names : List Text} :
    (scopeTables catalog schema rows : Except (MappingError E) (List Text)) = .ok names ↔
      [] ∉ scopeNames catalog schema rows ∧ names = scopeNames catalog schema rows := by
  induction rows generalizing names with
  | nil =>
    constructor
    · intro h
      exact ⟨List.not_mem_nil, (Except.ok.inj h).symm⟩
    · rintro ⟨_, rfl⟩
      rfl
  | cons row rows ih =>
    rw [scopeTables]
    by_cases hscope : row.catalog = catalog ∧ row.schema = schema
    · have hnames : scopeNames catalog schema (row :: rows) =
          row.name :: scopeNames catalog schema rows := by
        rw [scopeNames, List.filter_cons_of_pos (by simp [hscope]), List.map_cons]
        rfl
      rw [if_pos hscope, hnames]
      by_cases hname : row.name = []
      · rw [if_pos hname, hname]
        constructor
        · intro h
          cases h
        · rintro ⟨hnot, _⟩
          exact absurd List.mem_cons_self hnot
      · rw [if_neg hname, List.mem_cons, not_or]
        constructor
        · intro h
          cases hmore : (scopeTables catalog schema rows : Except (MappingError E) _) with
          | error e =>
            rw [hmore] at h
            cases h
          | ok more =>
            rw [hmore] at h
            obtain ⟨hnot, hall⟩ := ih.mp hmore
            exact ⟨⟨Ne.symm hname, hnot⟩, by rw [← hall]; exact (Except.ok.inj h).symm⟩
        · rintro ⟨⟨_, hnot⟩, rfl⟩
          rw [ih.mpr ⟨hnot, rfl⟩]
          rfl
    · have hnames : scopeNames catalog schema (row :: rows) = scopeNames catalog schema rows := by
        rw [scopeNames, List.filter_cons_of_neg (by simpa using hscope)]
        rfl
      rw [if_neg hscope, ih, hnames]

/-- What an entity is resolved to: a table of the scope and one of its columns for each mapped one,
no column for two of them. -/
structure Resolves {R : Type v} {V : Type*} (md : SchemaMeta E) (cat : IdentifierCatalog)
    (m : EntityMeta R V) (r : Resolution) : Prop where
  inCatalog : r.catalog = cat.catalog
  inSchema : r.schema = cat.schema
  table : StandsFor cat.tables m.table r.name
  columns : m.columns = [] ∧ r.columns = [] ∨
    ∃ rows, md.exactTableColumns ⟨cat.catalog, cat.schema, r.name⟩ = .ok rows ∧ Regular rows ∧
      List.Forall₂ (StandsFor (rows.map fun row => row.shape.name)) (m.columns.map Column.column)
        r.columns
  distinct : r.columns.Nodup

theorem assignColumns_ok_iff {names assigned declared columns : List Text} {owner : Text} :
    (IdentifierCatalog.assignColumns names owner assigned declared :
      Except (MappingError E) (List Text)) = .ok columns ↔
      List.Forall₂ (StandsFor names) declared columns ∧ columns.Nodup ∧
        ∀ name ∈ columns, name ∉ assigned := by
  induction declared generalizing assigned columns with
  | nil =>
    rw [IdentifierCatalog.assignColumns]
    constructor
    · intro h
      obtain rfl := Except.ok.inj h
      exact ⟨.nil, List.nodup_nil, fun _ hn => absurd hn List.not_mem_nil⟩
    · rintro ⟨hall, _⟩
      cases hall
      rfl
  | cons d ds ih =>
    rw [IdentifierCatalog.assignColumns, bind_eq_ok]
    constructor
    · rintro ⟨name, hname, hmore⟩
      split_ifs at hmore with hassigned
      obtain ⟨rest, hrest, hall⟩ := bind_eq_ok.mp hmore
      obtain rfl := Except.ok.inj hall
      obtain ⟨hstand, hnodup, hnew⟩ := ih.mp hrest
      refine ⟨.cons (resolveIdentifier_ok_iff.mp hname) hstand, List.nodup_cons.mpr ⟨?_, hnodup⟩,
        List.forall_mem_cons.mpr ⟨mt List.contains_iff_mem.mpr hassigned, ?_⟩⟩
      · intro hmem
        exact hnew name hmem List.mem_cons_self
      · intro n hn hmem
        exact hnew n hn (List.mem_cons_of_mem _ hmem)
    · rintro ⟨hstand, hnodup, hnew⟩
      cases hstand with
      | @cons _ name _ rest hone hmore =>
        obtain ⟨hnot, hnodup⟩ := List.nodup_cons.mp hnodup
        obtain ⟨hassigned, hnew⟩ := List.forall_mem_cons.mp hnew
        refine ⟨name, resolveIdentifier_ok_iff.mpr hone, ?_⟩
        rw [if_neg (mt List.contains_iff_mem.mp hassigned), bind_eq_ok]
        refine ⟨rest, ih.mpr ⟨hmore, hnodup, fun n hn hmem => ?_⟩, rfl⟩
        rcases List.mem_cons.mp hmem with rfl | hmem
        · exact hnot hn
        · exact hnew n hn hmem

namespace IdentifierCatalog
variable {R : Type v} {V : Type*} {md : SchemaMeta E} {cat : IdentifierCatalog}
  {cache : ColumnCache}

def Cached (md : SchemaMeta E) (cat : IdentifierCatalog) (cache : ColumnCache) : Prop :=
  ∀ name rows, cache.lookup name = some rows →
    exactColumns md ⟨cat.catalog, cat.schema, name⟩ = .ok rows

theorem cached_nil : Cached md cat [] := by
  intro name rows h
  cases h

/-- Reading through the cache is reading. -/
theorem columnsOf_spec (hcache : Cached md cat cache) {name : Text} :
    (∀ r, cat.columnsOf md cache name = .ok r →
      exactColumns md ⟨cat.catalog, cat.schema, name⟩ = .ok r.1 ∧ Cached md cat r.2) ∧
    ∀ rows, exactColumns md ⟨cat.catalog, cat.schema, name⟩ = .ok rows →
      ∃ cache', cat.columnsOf md cache name = .ok (rows, cache') := by
  rw [columnsOf]
  cases hfound : cache.lookup name with
  | some rows =>
    have hread := hcache name rows hfound
    constructor
    · intro r hr
      obtain rfl := Except.ok.inj hr
      exact ⟨hread, hcache⟩
    · intro rows' hrows'
      obtain rfl := Except.ok.inj (hread.symm.trans hrows')
      exact ⟨cache, rfl⟩
  | none =>
    dsimp only
    cases hread : exactColumns md ⟨cat.catalog, cat.schema, name⟩ with
    | error e =>
      constructor
      · intro r hr
        cases hr
      · intro rows hrows
        cases hrows
    | ok rows =>
      constructor
      · intro r hr
        obtain rfl := Except.ok.inj hr
        refine ⟨rfl, fun name' rows' hlookup => ?_⟩
        rw [List.lookup_cons] at hlookup
        split at hlookup
        · rename_i heq
          obtain rfl := Option.some.inj hlookup
          rw [eq_of_beq heq]
          exact hread
        · exact hcache name' rows' hlookup
      · intro rows' hrows'
        obtain rfl := Except.ok.inj hrows'
        exact ⟨_, rfl⟩

theorem resolve_ok (hcache : Cached md cat cache) {m : EntityMeta R V}
    {p : Resolution × ColumnCache} (h : cat.resolve md cache m = .ok p) :
    Resolves md cat m p.1 ∧ Cached md cat p.2 := by
  obtain ⟨name, hname, h⟩ := bind_eq_ok.mp h
  have htable := resolveIdentifier_ok_iff.mp hname
  split_ifs at h with hempty
  · obtain rfl := Except.ok.inj h
    exact ⟨⟨rfl, rfl, htable, Or.inl ⟨hempty, rfl⟩, List.nodup_nil⟩, hcache⟩
  · obtain ⟨read, hread, h⟩ := bind_eq_ok.mp h
    obtain ⟨columns, hcolumns, h⟩ := bind_eq_ok.mp h
    obtain rfl := Except.ok.inj h
    obtain ⟨hexact, hcached⟩ := (columnsOf_spec hcache).1 read hread
    obtain ⟨rows, hrows, hregular, hunique⟩ := exactColumns_ok_iff.mp hexact
    obtain ⟨hstand, hnodup, _⟩ := assignColumns_ok_iff.mp hcolumns
    refine ⟨⟨rfl, rfl, htable, Or.inr ⟨rows, hrows, hregular, ?_⟩, hnodup⟩, hcached⟩
    rw [hunique] at hstand
    exact hstand.imp fun d n hdn =>
      (StandsFor.congr fun n => mem_map_sortUnique (fun row : ColumnRow => row.shape.name)).mp hdn

theorem exists_resolve (hcache : Cached md cat cache) {m : EntityMeta R V} {r : Resolution}
    (h : Resolves md cat m r) : ∃ cache', cat.resolve md cache m = .ok (r, cache') := by
  obtain ⟨catalog, schema, name, columns⟩ := r
  obtain ⟨rfl, rfl, htable, hcolumns, hdistinct⟩ := h
  have hname : (resolveIdentifier cat.tables m.table "table".toList
      (qualifiedName ⟨cat.catalog, cat.schema, []⟩) : Except (MappingError E) Text) = .ok name :=
    resolveIdentifier_ok_iff.mpr htable
  by_cases hempty : m.columns = []
  · have hnone : columns = [] := by
      rcases hcolumns with ⟨_, hnone⟩ | ⟨_, _, _, hall⟩
      · exact hnone
      · rw [hempty] at hall
        cases hall
        rfl
    rw [hnone]
    exact ⟨cache, bind_eq_ok.mpr ⟨name, hname, if_pos hempty⟩⟩
  · rcases hcolumns with ⟨hnone, _⟩ | ⟨rows, hrows, hregular, hall⟩
    · exact absurd hnone hempty
    · obtain ⟨cache', hread⟩ := (columnsOf_spec hcache).2 _
        (exactColumns_ok_iff.mpr ⟨rows, hrows, hregular, rfl⟩)
      have hassign : (assignColumns
          ((sortUnique (fun row : ColumnRow => row.shape.name) rows).map fun row => row.shape.name)
          (qualifiedName ⟨cat.catalog, cat.schema, name⟩) [] (m.columns.map Column.column) :
          Except (MappingError E) _) = .ok columns := by
        refine assignColumns_ok_iff.mpr ⟨?_, hdistinct, fun _ _ => List.not_mem_nil⟩
        exact hall.imp fun d n hdn => (StandsFor.congr fun n =>
          mem_map_sortUnique (fun row : ColumnRow => row.shape.name)).mpr hdn
      refine ⟨cache', bind_eq_ok.mpr ⟨name, hname, ?_⟩⟩
      rw [if_neg hempty]
      exact bind_eq_ok.mpr ⟨_, hread, bind_eq_ok.mpr ⟨columns, hassign, rfl⟩⟩

theorem resolveAll_ok_iff (hcache : Cached md cat cache) {ms : List (EntityMeta R V)}
    {rs : List Resolution} :
    cat.resolveAll md cache ms = .ok rs ↔ List.Forall₂ (Resolves md cat) ms rs := by
  induction ms generalizing cache rs with
  | nil =>
    constructor
    · intro h
      obtain rfl := Except.ok.inj h
      exact .nil
    · intro h
      cases h
      rfl
  | cons m ms ih =>
    rw [resolveAll, bind_eq_ok]
    constructor
    · rintro ⟨p, hp, h⟩
      obtain ⟨rest, hrest, h⟩ := bind_eq_ok.mp h
      obtain rfl := Except.ok.inj h
      obtain ⟨hone, hcached⟩ := resolve_ok hcache hp
      exact .cons hone ((ih hcached).mp hrest)
    · intro h
      cases h with
      | @cons _ r _ rest hone hmore =>
        obtain ⟨cache', hresolve⟩ := exists_resolve hcache hone
        have hcached := (resolve_ok hcache hresolve).2
        refine ⟨_, hresolve, bind_eq_ok.mpr ⟨rest, (ih hcached).mpr hmore, rfl⟩⟩

end IdentifierCatalog
end Uniorm.Orm
