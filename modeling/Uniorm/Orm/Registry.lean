import Mathlib.Data.List.Perm.Basic
import Uniorm.Foundation.Transition
import Uniorm.Orm.Resolution

/-! # The registered mappings

`orm::map` with the calls of its builder, `resolve_identifiers` and
`clear_identifier_resolution`. Every entity is resolved before the first
resolution is stored, so a call that throws leaves the mappings as they were.
Objects are reached through untyped pointers: `R` is the type of all of them.
-/
namespace Uniorm.Orm

open Foundation Sql Builder Schema

/-- A registered type with its `entity_meta`; `ignored` are the members left out. -/
structure Entry (R V ι K : Type) where
  type : ι
  entity : EntityMeta R V
  ignored : List K

/-- `entities_`, in the order it is iterated in. No type is registered twice. -/
structure Entities (R V ι K : Type) where
  entries : List (Entry R V ι K)
  distinct : (entries.map Entry.type).Nodup

structure CatalogConnection (E : Type) where
  dialect : Dialect
  dbmsName : Text
  schema : Except E (SchemaMeta E)

inductive Call (R V ι K E : Type) where
  | map (type : ι) (table : Text)
  | column (type : ι) (column : Column R V)
  | primaryKey (type : ι) (column : Column R V)
  | ignore (type : ι) (member : K)
  | resolveIdentifiers (conn : Option (CatalogConnection E)) (catalog schema : Text)
  | clearIdentifierResolution

/-- The calls of `orm::map` and of the builder it returns. -/
def Call.isMapping {R V ι K E : Type} : Call R V ι K E → Bool
  | map _ _ => true
  | column _ _ => true
  | primaryKey _ _ => true
  | ignore _ _ => true
  | resolveIdentifiers _ _ _ => false
  | clearIdentifierResolution => false

section
variable {R V ι K E : Type}

def Entry.resolvedTo (e : Entry R V ι K) (r : Option Resolution) : Entry R V ι K :=
  { e with entity := { e.entity with resolved := r } }

@[simp] theorem Entry.resolvedTo_type (e : Entry R V ι K) (r : Option Resolution) :
    (e.resolvedTo r).type = e.type := rfl

def commit : List (Entry R V ι K) → List Resolution → List (Entry R V ι K)
  | e :: entries, r :: rs => e.resolvedTo (some r) :: commit entries rs
  | entries, [] => entries
  | [], _ :: _ => []

theorem commit_types (entries : List (Entry R V ι K)) (rs : List Resolution) :
    (commit entries rs).map Entry.type = entries.map Entry.type := by
  induction entries generalizing rs with
  | nil => cases rs <;> rfl
  | cons e entries ih =>
    cases rs with
    | nil => rfl
    | cons r rs => exact congrArg (e.type :: ·) (ih rs)

namespace Entities

def empty : Entities R V ι K := ⟨[], List.nodup_nil⟩

def commit (reg : Entities R V ι K) (rs : List Resolution) : Entities R V ι K :=
  ⟨Orm.commit reg.entries rs, by rw [commit_types]; exact reg.distinct⟩

def clear (reg : Entities R V ι K) : Entities R V ι K :=
  ⟨reg.entries.map fun e => e.resolvedTo none, by
    rw [List.map_map]
    exact reg.distinct⟩

variable [DecidableEq ι]

def insert (reg : Entities R V ι K) (type : ι) (table : Text)
    (h : type ∉ reg.entries.map Entry.type) : Entities R V ι K :=
  ⟨⟨type, ⟨table, [], none⟩, []⟩ :: reg.entries, List.nodup_cons.mpr ⟨h, reg.distinct⟩⟩

/-- What a builder does to the entry it was made for. -/
def modify (reg : Entities R V ι K) (type : ι) (columns : List (Column R V)) (ignored : List K) :
    Entities R V ι K :=
  ⟨reg.entries.map fun e => if e.type = type then
      { e with
        entity := { e.entity with columns := e.entity.columns ++ columns }
        ignored := e.ignored ++ ignored }
      else e, by
    rw [List.map_map]
    have hsame : (Entry.type ∘ fun e : Entry R V ι K => if e.type = type then
        { e with
          entity := { e.entity with columns := e.entity.columns ++ columns }
          ignored := e.ignored ++ ignored }
        else e) = Entry.type := by
      funext e
      rw [Function.comp_apply]
      split_ifs <;> rfl
    rw [hsame]
    exact reg.distinct⟩

end Entities

abbrev Mappings (R V ι K E : Type) : Type → Type := Action (Entities R V ι K) (MappingError E)

def builderCall [DecidableEq ι] (type : ι) (columns : List (Column R V)) (ignored : List K) :
    Mappings R V ι K E Unit := fun reg =>
  if reg.entries.any fun e => e.type = type && e.entity.resolved.isSome then
    Action.throw .resolvedMapping reg
  else Action.update (fun reg => reg.modify type columns ignored) () reg

def map [DecidableEq ι] (type : ι) (table : Text) : Mappings R V ι K E Unit := fun reg =>
  if h : type ∈ reg.entries.map Entry.type then Action.throw .alreadyRegistered reg
  else (.ok (), reg.insert type table h)

def checkScope (q : Qualification) (databaseName catalog schema : Text) :
    Except (MappingError E) Unit :=
  if q = .schema then
    if schema = [] ∨ catalog ≠ databaseName then .error .currentDatabase else .ok ()
  else if schema ≠ [] then .error .emptySchema
  else .ok ()

/-- The checks of `resolve_identifiers`, and the catalog it reads. -/
def askedCatalog (conn : Option (CatalogConnection E)) (catalog schema : Text) :
    Except (MappingError E) (SchemaMeta E × IdentifierCatalog) :=
  match conn with
  | none => .error .notConnected
  | some conn =>
    if conn.dialect.tableQualification = .unsupported then .error (.unsupported conn.dbmsName)
    else if catalog = [] ∨ '\x00' ∈ catalog ∨ '\x00' ∈ schema then .error .explicitCatalog
    else do
      let metadata ← conn.schema.mapError .backend
      checkScope conn.dialect.tableQualification metadata.databaseName catalog schema
      let cat ← IdentifierCatalog.read metadata catalog schema
      pure (metadata, cat)

def resolveIdentifiers (conn : Option (CatalogConnection E)) (catalog schema : Text) :
    Mappings R V ι K E Unit := do
  let (metadata, cat) ← Action.lift (askedCatalog conn catalog schema)
  let entries ← Action.read Entities.entries
  let pending ← Action.lift (cat.resolveAll metadata [] (entries.map Entry.entity))
  Action.update (fun reg => reg.commit pending) ()

def Call.run [DecidableEq ι] : Call R V ι K E → Mappings R V ι K E Unit
  | map type table => Orm.map type table
  | column type c => builderCall type [{ c with isPrimaryKey := false }] []
  | primaryKey type c => builderCall type [{ c with isPrimaryKey := true }] []
  | ignore type member => builderCall type [] [member]
  | resolveIdentifiers conn catalog schema => Orm.resolveIdentifiers conn catalog schema
  | clearIdentifierResolution => Action.update Entities.clear ()

def afterCall [DecidableEq ι] (reg : Entities R V ι K) (call : Call R V ι K E) :
    Entities R V ι K := (call.run reg).2

def SameConnection : Option (CatalogConnection E) → Option (CatalogConnection E) → Prop
  | none, none => True
  | some conn, some conn' => conn.dialect = conn'.dialect ∧ conn.dbmsName = conn'.dbmsName ∧
      match conn.schema, conn'.schema with
      | .ok md, .ok md' => md.Same md'
      | .error _, .error _ => True
      | _, _ => False
  | _, _ => False

theorem SameConnection.symm {conn conn' : Option (CatalogConnection E)} (h : SameConnection conn conn') :
    SameConnection conn' conn := by
  cases conn with
  | none =>
    cases conn' with
    | none => trivial
    | some conn' => cases h
  | some conn =>
    cases conn' with
    | none => cases h
    | some conn' =>
      obtain ⟨hdialect, hname, hschema⟩ := h
      refine ⟨hdialect.symm, hname.symm, ?_⟩
      cases hmd : conn.schema with
      | error e =>
        cases hmd' : conn'.schema with
        | error e' => trivial
        | ok md' =>
          rw [hmd, hmd'] at hschema
          exact hschema.elim
      | ok md =>
        cases hmd' : conn'.schema with
        | error e' =>
          rw [hmd, hmd'] at hschema
          exact hschema.elim
        | ok md' =>
          rw [hmd, hmd'] at hschema
          exact SchemaMeta.Same.symm hschema

theorem read_ok_iff {md : SchemaMeta E} {catalog schema : Text} {cat : IdentifierCatalog} :
    IdentifierCatalog.read md catalog schema = .ok cat ↔
      ∃ rows, md.exactTables catalog schema = .ok rows ∧ [] ∉ scopeNames catalog schema rows ∧
        cat = ⟨catalog, schema, sortUnique id (scopeNames catalog schema rows)⟩ := by
  rw [IdentifierCatalog.read, bind_eq_ok]
  constructor
  · rintro ⟨rows, hrows, hmore⟩
    obtain ⟨names, hnames, hall⟩ := bind_eq_ok.mp hmore
    obtain ⟨hnamed, rfl⟩ := scopeTables_ok_iff.mp hnames
    exact ⟨rows, mapError_eq_ok.mp hrows, hnamed, (Except.ok.inj hall).symm⟩
  · rintro ⟨rows, hrows, hnamed, rfl⟩
    exact ⟨rows, mapError_eq_ok.mpr hrows,
      bind_eq_ok.mpr ⟨_, scopeTables_ok_iff.mpr ⟨hnamed, rfl⟩, rfl⟩⟩

/-- The names of a scope do not depend on how the tables are listed. -/
theorem read_congr {md md' : SchemaMeta E} (h : md.Same md') {catalog schema : Text}
    {cat : IdentifierCatalog} (hread : IdentifierCatalog.read md catalog schema = .ok cat) :
    IdentifierCatalog.read md' catalog schema = .ok cat := by
  obtain ⟨rows, hrows, hnamed, rfl⟩ := read_ok_iff.mp hread
  have hsame := h.tables catalog schema
  rw [hrows] at hsame
  obtain ⟨rows', hrows', hmem⟩ := hsame.ok
  have hnames : ∀ n, n ∈ scopeNames catalog schema rows ↔ n ∈ scopeNames catalog schema rows' := by
    intro n
    rw [mem_scopeNames, mem_scopeNames, hmem]
  refine read_ok_iff.mpr ⟨rows', hrows', ?_, ?_⟩
  · rw [← hnames]
    exact hnamed
  · rw [sortUnique_congr hnames]

theorem Resolves.congr {md md' : SchemaMeta E} (h : md.Same md') {cat : IdentifierCatalog}
    {m : EntityMeta R V} {r : Resolution} (hr : Resolves md cat m r) : Resolves md' cat m r := by
  refine ⟨hr.inCatalog, hr.inSchema, hr.table, ?_, hr.distinct⟩
  rcases hr.columns with hnone | ⟨rows, hrows, hregular, hall⟩
  · exact Or.inl hnone
  · have hsame := h.columns ⟨cat.catalog, cat.schema, r.name⟩
    rw [hrows] at hsame
    obtain ⟨rows', hrows', hmem⟩ := hsame.ok
    have hnames : ∀ n, n ∈ rows.map (fun row => row.shape.name) ↔
        n ∈ rows'.map fun row => row.shape.name := by
      intro n
      simp only [List.mem_map, hmem]
    exact Or.inr ⟨rows', hrows', (Regular.congr hmem).mp hregular,
      hall.imp fun d n hdn => (StandsFor.congr hnames).mp hdn⟩

theorem askedCatalog_ok_iff {conn : Option (CatalogConnection E)} {catalog schema : Text}
    {p : SchemaMeta E × IdentifierCatalog} :
    askedCatalog conn catalog schema = .ok p ↔ ∃ c, conn = some c ∧
      c.dialect.tableQualification ≠ .unsupported ∧
      ¬ (catalog = [] ∨ '\x00' ∈ catalog ∨ '\x00' ∈ schema) ∧ c.schema = .ok p.1 ∧
      (checkScope c.dialect.tableQualification p.1.databaseName catalog schema :
        Except (MappingError E) Unit) = .ok () ∧
      IdentifierCatalog.read p.1 catalog schema = .ok p.2 := by
  cases conn with
  | none =>
    constructor
    · intro h
      cases h
    · rintro ⟨c, hc, _⟩
      cases hc
  | some c =>
    rw [askedCatalog]
    constructor
    · intro h
      split_ifs at h with hqual hnames
      obtain ⟨md, hmd, h⟩ := bind_eq_ok.mp h
      obtain ⟨_, hscope, h⟩ := bind_eq_ok.mp h
      obtain ⟨cat, hread, h⟩ := bind_eq_ok.mp h
      obtain rfl := Except.ok.inj h
      exact ⟨c, rfl, hqual, hnames, mapError_eq_ok.mp hmd, hscope, hread⟩
    · rintro ⟨c', hc, hqual, hnames, hmd, hscope, hread⟩
      obtain rfl := Option.some.inj hc
      rw [if_neg hqual, if_neg hnames]
      exact bind_eq_ok.mpr ⟨p.1, mapError_eq_ok.mpr hmd,
        bind_eq_ok.mpr ⟨(), hscope, bind_eq_ok.mpr ⟨p.2, hread, rfl⟩⟩⟩

theorem askedCatalog_congr {conn conn' : Option (CatalogConnection E)} (h : SameConnection conn conn')
    {catalog schema : Text} {p : SchemaMeta E × IdentifierCatalog}
    (hasked : askedCatalog conn catalog schema = .ok p) :
    ∃ md', p.1.Same md' ∧ askedCatalog conn' catalog schema = .ok (md', p.2) := by
  obtain ⟨c, rfl, hqual, hnames, hmd, hscope, hread⟩ := askedCatalog_ok_iff.mp hasked
  cases conn' with
  | none => cases h
  | some c' =>
    obtain ⟨hdialect, _, hschema⟩ := h
    rw [hmd] at hschema
    cases hmd' : c'.schema with
    | error e =>
      rw [hmd'] at hschema
      exact hschema.elim
    | ok md' =>
      rw [hmd'] at hschema
      have hsame : p.1.Same md' := hschema
      rw [hdialect] at hqual hscope
      rw [hsame.databaseName] at hscope
      exact ⟨md', hsame, askedCatalog_ok_iff.mpr
        ⟨c', rfl, hqual, hnames, hmd', hscope, read_congr hsame hread⟩⟩

def ResolvedEntry (md : SchemaMeta E) (cat : IdentifierCatalog) (e e' : Entry R V ι K) : Prop :=
  ∃ r, Resolves md cat e.entity r ∧ e' = e.resolvedTo (some r)

theorem resolvedEntries_iff {md : SchemaMeta E} {cat : IdentifierCatalog}
    {entries out : List (Entry R V ι K)} :
    List.Forall₂ (ResolvedEntry md cat) entries out ↔
      ∃ rs, List.Forall₂ (Resolves md cat) (entries.map Entry.entity) rs ∧
        out = commit entries rs := by
  constructor
  · intro h
    induction h with
    | nil => exact ⟨[], .nil, rfl⟩
    | cons hone _ ih =>
      obtain ⟨r, hr, rfl⟩ := hone
      obtain ⟨rs, hrs, rfl⟩ := ih
      exact ⟨r :: rs, .cons hr hrs, rfl⟩
  · rintro ⟨rs, hrs, rfl⟩
    induction entries generalizing rs with
    | nil =>
      cases hrs
      exact .nil
    | cons e entries ih =>
      cases hrs with
      | cons hone hmore => exact .cons ⟨_, hone, rfl⟩ (ih _ hmore)

/-- What a call does, spelled out. -/
theorem resolveIdentifiers_eq (conn : Option (CatalogConnection E)) (catalog schema : Text)
    (reg : Entities R V ι K) :
    resolveIdentifiers conn catalog schema reg = match askedCatalog conn catalog schema with
      | .error e => (.error e, reg)
      | .ok p => match p.2.resolveAll p.1 [] (reg.entries.map Entry.entity) with
        | .error e => (.error e, reg)
        | .ok rs => (.ok (), reg.commit rs) := by
  unfold resolveIdentifiers
  cases askedCatalog conn catalog schema with
  | error e => rfl
  | ok p =>
    rcases p with ⟨metadata, cat⟩
    change Action.bind (Action.lift (cat.resolveAll metadata [] (reg.entries.map Entry.entity)))
      (fun pending => Action.update (fun reg => reg.commit pending) ()) reg = _
    dsimp only
    rw [Action.bind, Action.lift]
    cases cat.resolveAll metadata [] (reg.entries.map Entry.entity) with
    | error e => rfl
    | ok rs => rfl

theorem resolveIdentifiers_throws {conn : Option (CatalogConnection E)} {catalog schema : Text}
    {reg : Entities R V ι K} {e : MappingError E}
    (h : (resolveIdentifiers conn catalog schema reg).1 = .error e) :
    (resolveIdentifiers conn catalog schema reg).2 = reg := by
  rw [resolveIdentifiers_eq] at h ⊢
  cases hasked : askedCatalog conn catalog schema with
  | error e' => rfl
  | ok p =>
    rw [hasked] at h
    dsimp only at h ⊢
    cases hall : p.2.resolveAll p.1 [] (reg.entries.map Entry.entity) with
    | error e' => rfl
    | ok rs =>
      rw [hall] at h
      cases h

theorem resolveIdentifiers_returns_iff {conn : Option (CatalogConnection E)} {catalog schema : Text}
    {reg : Entities R V ι K} {out : List (Entry R V ι K)} :
    (resolveIdentifiers conn catalog schema reg).1 = .ok () ∧
      (resolveIdentifiers conn catalog schema reg).2.entries = out ↔
    ∃ p, askedCatalog conn catalog schema = .ok p ∧
      List.Forall₂ (ResolvedEntry p.1 p.2) reg.entries out := by
  rw [resolveIdentifiers_eq]
  cases hasked : askedCatalog conn catalog schema with
  | error e =>
    constructor
    · rintro ⟨h, _⟩
      cases h
    · rintro ⟨p, hp, _⟩
      cases hp
  | ok p =>
    dsimp only
    cases hall : p.2.resolveAll p.1 [] (reg.entries.map Entry.entity) with
    | error e =>
      constructor
      · rintro ⟨h, _⟩
        cases h
      · rintro ⟨p', hp', hout⟩
        obtain rfl := Except.ok.inj hp'
        obtain ⟨rs, hrs, _⟩ := resolvedEntries_iff.mp hout
        rw [(IdentifierCatalog.resolveAll_ok_iff IdentifierCatalog.cached_nil).mpr hrs] at hall
        cases hall
    | ok rs =>
      have hrs := (IdentifierCatalog.resolveAll_ok_iff IdentifierCatalog.cached_nil).mp hall
      constructor
      · rintro ⟨_, rfl⟩
        exact ⟨p, rfl, resolvedEntries_iff.mpr ⟨rs, hrs, rfl⟩⟩
      · rintro ⟨p', hp', hout⟩
        obtain rfl := Except.ok.inj hp'
        obtain ⟨rs', hrs', rfl⟩ := resolvedEntries_iff.mp hout
        have hall' := (IdentifierCatalog.resolveAll_ok_iff IdentifierCatalog.cached_nil).mpr hrs'
        obtain rfl := Except.ok.inj (hall.symm.trans hall')
        exact ⟨rfl, rfl⟩

/-- Neither the order of the entities nor the way the catalog is listed matters. -/
theorem resolveIdentifiers_perm {conn conn' : Option (CatalogConnection E)} {catalog schema : Text}
    {reg reg' : Entities R V ι K} (hperm : reg.entries.Perm reg'.entries)
    (hconn : SameConnection conn conn')
    (h : (resolveIdentifiers conn catalog schema reg).1 = .ok ()) :
    (resolveIdentifiers conn' catalog schema reg').1 = .ok () ∧
      (resolveIdentifiers conn catalog schema reg).2.entries.Perm
        (resolveIdentifiers conn' catalog schema reg').2.entries := by
  obtain ⟨p, hasked, hout⟩ := resolveIdentifiers_returns_iff.mp ⟨h, rfl⟩
  obtain ⟨md', hsame, hasked'⟩ := askedCatalog_congr hconn hasked
  obtain ⟨out, hout', hpermuted⟩ := List.perm_comp_forall₂ hperm.symm hout
  have hmoved : List.Forall₂ (ResolvedEntry md' p.2) reg'.entries out := by
    apply hout'.imp
    rintro e e' ⟨r, hr, rfl⟩
    exact ⟨r, hr.congr hsame, rfl⟩
  obtain ⟨hok, hentries⟩ := resolveIdentifiers_returns_iff.mpr ⟨(md', p.2), hasked', hmoved⟩
  refine ⟨hok, ?_⟩
  rw [hentries]
  exact hpermuted.symm

/-- A call of `resolve_identifiers`: all entities or none, and the same whatever the order. -/
structure AllOrNone (reg : Entities R V ι K) (conn : Option (CatalogConnection E))
    (catalog schema : Text) : Prop where
  throws : ∀ e, (resolveIdentifiers conn catalog schema reg).1 = .error e →
    (resolveIdentifiers conn catalog schema reg).2 = reg
  returns : (resolveIdentifiers conn catalog schema reg).1 = .ok () →
    ∃ c md rows, conn = some c ∧ c.schema = .ok md ∧ md.exactTables catalog schema = .ok rows ∧
      List.Forall₂ (ResolvedEntry md ⟨catalog, schema, scopeNames catalog schema rows⟩) reg.entries
        (resolveIdentifiers conn catalog schema reg).2.entries
  orderFree : ∀ (reg' : Entities R V ι K) conn', reg.entries.Perm reg'.entries →
    SameConnection conn conn' →
    ((resolveIdentifiers conn catalog schema reg).1 = .ok () ↔
      (resolveIdentifiers conn' catalog schema reg').1 = .ok ()) ∧
    (resolveIdentifiers conn catalog schema reg).2.entries.Perm
      (resolveIdentifiers conn' catalog schema reg').2.entries

theorem allOrNone (reg : Entities R V ι K) (conn : Option (CatalogConnection E))
    (catalog schema : Text) : AllOrNone reg conn catalog schema := by
  refine ⟨fun e he => resolveIdentifiers_throws he, ?_, ?_⟩
  · intro h
    obtain ⟨p, hasked, hout⟩ := resolveIdentifiers_returns_iff.mp ⟨h, rfl⟩
    obtain ⟨c, hc, _, _, hmd, _, hread⟩ := askedCatalog_ok_iff.mp hasked
    obtain ⟨rows, hrows, _, hcat⟩ := read_ok_iff.mp hread
    refine ⟨c, p.1, rows, hc, hmd, hrows, hout.imp ?_⟩
    rintro e e' ⟨r, hr, rfl⟩
    rw [hcat] at hr
    exact ⟨r, ⟨hr.inCatalog, hr.inSchema, (StandsFor.congr fun n => mem_sortUnique).mp hr.table,
      hr.columns, hr.distinct⟩, rfl⟩
  · intro reg' conn' hperm hconn
    cases hthis : (resolveIdentifiers conn catalog schema reg).1 with
    | ok u =>
      obtain ⟨hok, hpermuted⟩ := resolveIdentifiers_perm hperm hconn hthis
      exact ⟨⟨fun _ => hok, fun _ => rfl⟩, hpermuted⟩
    | error e =>
      cases hother : (resolveIdentifiers conn' catalog schema reg').1 with
      | ok u =>
        have hok := (resolveIdentifiers_perm hperm.symm hconn.symm hother).1
        rw [hthis] at hok
        cases hok
      | error e' =>
        rw [resolveIdentifiers_throws hthis, resolveIdentifiers_throws hother]
        exact ⟨⟨fun h => absurd h (by simp), fun h => absurd h (by simp)⟩, hperm⟩

section
variable [DecidableEq ι]

theorem mapping_keeps {reg : Entities R V ι K} {call : Call R V ι K E}
    (hcall : call.isMapping = true) {e : Entry R V ι K} (he : e ∈ reg.entries)
    (hresolved : e.entity.resolved ≠ none) : e ∈ (afterCall reg call).entries := by
  have hbuilder : ∀ type columns ignored,
      e ∈ (builderCall (E := E) type columns ignored reg).2.entries := by
    intro type columns ignored
    rw [builderCall]
    split_ifs with hany
    · exact he
    · have hother : e.type ≠ type := by
        intro htype
        apply hany
        rw [List.any_eq_true]
        exact ⟨e, he, by simp [htype, Option.isSome_iff_ne_none, hresolved]⟩
      exact List.mem_map.mpr ⟨e, he, if_neg hother⟩
  cases call with
  | map type table =>
    rw [afterCall, Call.run, Orm.map]
    split_ifs with hknown
    · exact he
    · exact List.mem_cons_of_mem _ he
  | column type c => exact hbuilder _ _ _
  | primaryKey type c => exact hbuilder _ _ _
  | ignore type member => exact hbuilder _ _ _
  | resolveIdentifiers conn catalog schema => cases hcall
  | clearIdentifierResolution => cases hcall

/-- A resolution names as many columns as are mapped, no two of them alike. -/
def Consistent (reg : Entities R V ι K) : Prop :=
  ∀ e ∈ reg.entries, ∀ r, e.entity.resolved = some r →
    r.columns.length = e.entity.columns.length ∧ r.columns.Nodup

theorem Resolves.length_eq {md : SchemaMeta E} {cat : IdentifierCatalog} {m : EntityMeta R V}
    {r : Resolution} (h : Resolves md cat m r) : r.columns.length = m.columns.length := by
  rcases h.columns with ⟨hnone, hempty⟩ | ⟨_, _, _, hall⟩
  · rw [hnone, hempty]
    rfl
  · rw [← hall.length_eq, List.length_map]

theorem consistent_afterCall {reg : Entities R V ι K} (h : Consistent reg)
    (call : Call R V ι K E) : Consistent (afterCall reg call) := by
  have hbuilder : ∀ type columns ignored,
      Consistent (builderCall (E := E) type columns ignored reg).2 := by
    intro type columns ignored
    rw [builderCall]
    split_ifs with hany
    · exact h
    · intro e he r hr
      obtain ⟨e', he', rfl⟩ := List.mem_map.mp he
      by_cases htype : e'.type = type
      · rw [if_pos htype] at hr
        refine absurd ?_ hany
        rw [List.any_eq_true]
        refine ⟨e', he', ?_⟩
        have hsome : e'.entity.resolved = some r := hr
        simp [htype, hsome]
      · rw [if_neg htype] at hr ⊢
        exact h e' he' r hr
  cases call with
  | map type table =>
    rw [afterCall, Call.run, Orm.map]
    split_ifs with hknown
    · exact h
    · intro e he r hr
      rcases List.mem_cons.mp he with rfl | he
      · cases hr
      · exact h e he r hr
  | column type c => exact hbuilder _ _ _
  | primaryKey type c => exact hbuilder _ _ _
  | ignore type member => exact hbuilder _ _ _
  | resolveIdentifiers conn catalog schema =>
    change Consistent (resolveIdentifiers conn catalog schema reg).2
    cases hcall : (resolveIdentifiers conn catalog schema reg).1 with
    | error e =>
      rw [resolveIdentifiers_throws hcall]
      exact h
    | ok u =>
      obtain ⟨p, _, hout⟩ := resolveIdentifiers_returns_iff.mp ⟨hcall, rfl⟩
      intro e' he' r hr
      obtain ⟨e, -, r', hr', rfl⟩ := exists_of_forall₂ hout he'
      obtain rfl : r' = r := Option.some.inj hr
      exact ⟨hr'.length_eq, hr'.distinct⟩
  | clearIdentifierResolution =>
    intro e he r hr
    obtain ⟨e', _, rfl⟩ := List.mem_map.mp he
    cases hr

/-- What a call does to the mappings it finds. -/
structure CallSound (reg : Entities R V ι K) (call : Call R V ι K E) : Prop where
  resolution : ∀ conn catalog schema, call = .resolveIdentifiers conn catalog schema →
    AllOrNone reg conn catalog schema
  mapping : call.isMapping = true → ∀ e ∈ reg.entries, e.entity.resolved ≠ none →
    e ∈ (afterCall reg call).entries

/-- Over every run of mapping, resolving and clearing calls. -/
theorem resolution_over_runs (calls : List (Call R V ι K E)) :
    EachStep afterCall CallSound (Entities.empty : Entities R V ι K) calls ∧
      AfterEach afterCall Consistent (Entities.empty : Entities R V ι K) calls := by
  constructor
  · apply eachStep_of_forall
    intro reg call
    exact ⟨fun conn catalog schema _ => allOrNone reg conn catalog schema,
      fun hcall e he hresolved => mapping_keeps hcall he hresolved⟩
  · have hempty : Consistent (Entities.empty : Entities R V ι K) := by
      intro e he
      cases he
    refine afterEach_of_keeps ?_ hempty calls
    exact fun _ call hreg => consistent_afterCall hreg call

end

end

end Uniorm.Orm
