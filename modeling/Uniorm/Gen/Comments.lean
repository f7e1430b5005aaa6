import Uniorm.Cpp.Comment
import Uniorm.Foundation.Action
import Uniorm.Foundation.Lists
import Uniorm.Gen.Header

/-! # Comments of the generated header

Defaults, foreign keys and indexes are put into line comments as they are. Without them a model
leaves the same code; whether they leave the code alone depends on the texts, and on what a compiler
is reading where a comment begins.
-/
namespace Uniorm.Gen

open Foundation Sql Builder Cpp

def ColumnModel.plain (col : ColumnModel) : ColumnModel := { col with defaultValue := none }

/-- A table without what is reported in comments alone. -/
def TableModel.plain (table : TableModel) : TableModel :=
  { table with columns := table.columns.map ColumnModel.plain, foreignKeys := [], indexes := [] }

def SchemaModel.plain (model : SchemaModel) : SchemaModel :=
  { model with tables := model.tables.map TableModel.plain }

def MemberInfo.plain (m : MemberInfo) : MemberInfo := { m with col := m.col.plain }

def fkPassages (fk : FkModel) : List Passage :=
  fk.columns.map fun p => .comment (" FK: ".toList ++ p.1 ++ " -> ".toList ++ fk.pkTable ++ ['('] ++
    p.2 ++ [')'])

def indexPassage (idx : IndexModel) : Passage :=
  .comment (" index: ".toList ++ idx.name ++ [' ', '('] ++ join idx.columns ", ".toList ++ [')'] ++
    if idx.unique then " UNIQUE".toList else [])

def memberPassages (m : MemberInfo) : List Passage :=
  let decl := if m.col.shape.nullable then "std::optional<".toList ++ m.cppType ++ ['>']
    else m.cppType
  [.code ([' ', ' '] ++ decl ++ [' '] ++ m.member ++ [';', ' ', ' ']),
    .comment (' ' :: columnComment m.col)]

def tableRest (table : TableModel) (className : Text) (members : List MemberInfo) : List Chunk :=
  [.lit "\x7d;\n\n"] ++ converterChecks [] members ++
  [.lit "inline void ", .name (mappingName className), .lit "(uniorm::orm& registry) \x7b\n",
    .lit "  registry.map<", .name className, .lit ">(", .literal table.name, .lit ")"] ++
  members.flatMap (columnCall className) ++ [.lit ";\n\x7d\n\n"]

def tablePassages (table : TableModel) (className : Text) (members : List MemberInfo) :
    List Passage :=
  [.code ("// table: ".toList ++ table.name ++ ['\n'])] ++
  table.foreignKeys.flatMap fkPassages ++ table.indexes.map indexPassage ++
  [.code (render [.lit "struct ", .name className, .lit " \x7b\n"])] ++
  members.flatMap memberPassages ++ [.code (render (tableRest table className members))]

def tablePassagesOf (cfg : GenConfig) (p : TableModel × Text) :
    Except ConfigError (List Passage × List Text) :=
  (buildMembers p.1 cfg).map fun r => (tablePassages p.1 p.2 r.1, r.2)

def headerPassages (model : SchemaModel) (cfg : GenConfig) :
    Except ConfigError (List Passage × List Text) := do
  let tables := emitted cfg model
  checkClassNames tables
  let parts ← tables.mapM (tablePassagesOf cfg)
  pure ([.code (render (preamble model.name))] ++ parts.flatMap Prod.fst ++
    [.code (render (closing model.name (tables.map Prod.snd)))], parts.flatMap Prod.snd)

theorem render_append (a b : List Chunk) : render (a ++ b) = render a ++ render b :=
  List.flatMap_append

theorem render_raw (t : Text) : render [.raw t] = t := List.append_nil t

theorem render_flatMap {α : Type*} (f : α → List Chunk) (l : List α) :
    render (l.flatMap f) = l.flatMap fun a => render (f a) := List.flatMap_assoc

theorem comment_text (slashes head body : Text) (h : slashes = '/' :: '/' :: head) :
    (Passage.comment (head ++ body)).text = slashes ++ body ++ ['\n'] := by
  rw [h, Passage.text]
  simp only [List.cons_append, List.append_assoc]

theorem fkPassages_text (fk : FkModel) :
    (fkPassages fk).flatMap Passage.text = render (fkLines fk) := by
  rw [fkPassages, fkLines, render, List.flatMap_map, List.flatMap_map]
  congr 1
  funext p
  have hline := comment_text "// FK: ".toList " FK: ".toList
    (p.1 ++ " -> ".toList ++ fk.pkTable ++ ['('] ++ p.2 ++ [')']) rfl
  simp only [List.append_assoc] at hline
  simp only [Chunk.text, List.append_assoc]
  exact hline

theorem indexPassage_text (idx : IndexModel) : (indexPassage idx).text = (indexLine idx).text := by
  have hline := comment_text "// index: ".toList " index: ".toList
    (idx.name ++ [' ', '('] ++ join idx.columns ", ".toList ++ [')'] ++
      if idx.unique then " UNIQUE".toList else []) rfl
  rw [indexPassage, indexLine, Chunk.text]
  simp only [List.append_assoc] at hline ⊢
  exact hline

theorem memberPassages_text (m : MemberInfo) :
    (memberPassages m).flatMap Passage.text = render (memberLine m) := by
  have hline := comment_text ['/', '/', ' '] [' '] (columnComment m.col) rfl
  have hsemicolon : ";  // ".toList = [';', ' ', ' '] ++ ['/', '/', ' '] := rfl
  rw [memberPassages, memberLine, render]
  simp only [List.flatMap_cons, List.flatMap_nil, List.append_nil, Passage.text, Chunk.text]
  simp only [List.singleton_append, Passage.text] at hline
  rw [hline, hsemicolon]
  simp only [List.append_assoc]

theorem tablePassages_text (table : TableModel) (className : Text) (members : List MemberInfo) :
    (tablePassages table className members).flatMap Passage.text =
      render (tableChunks table className members) := by
  have hkeys : (table.foreignKeys.flatMap fkPassages).flatMap Passage.text =
      render (table.foreignKeys.flatMap fkLines) := by
    rw [List.flatMap_assoc, render_flatMap]
    simp only [fkPassages_text]
  have hindexes : (table.indexes.map indexPassage).flatMap Passage.text =
      render (table.indexes.map indexLine) := by
    rw [List.flatMap_map, render, List.flatMap_map]
    simp only [indexPassage_text]
  have hmembers : (members.flatMap memberPassages).flatMap Passage.text =
      render (members.flatMap memberLine) := by
    rw [List.flatMap_assoc, render_flatMap]
    simp only [memberPassages_text]
  rw [tablePassages]
  simp only [List.flatMap_append, List.flatMap_singleton, hkeys, hindexes, hmembers, Passage.text]
  simp only [tableChunks, tableRest, render_append, render_raw, List.append_assoc]

theorem emitTable_eq (cfg : GenConfig) (p : TableModel × Text) :
    (emitTable cfg p).map (fun r => (render r.1, r.2)) =
      (tablePassagesOf cfg p).map fun r => (r.1.flatMap Passage.text, r.2) := by
  rw [emitTable, tablePassagesOf]
  cases buildMembers p.1 cfg with
  | error e => rfl
  | ok r =>
    refine congrArg (fun t => Except.ok (t, r.2)) ?_
    exact (tablePassages_text p.1 p.2 r.1).symm

def headerOf (model : SchemaModel) (classNames : List Text) (tables : List (Text × List Text)) :
    Text × List Text :=
  (render (preamble model.name) ++ tables.flatMap Prod.fst ++ render (closing model.name classNames),
    tables.flatMap Prod.snd)

theorem generateHeader_eq (model : SchemaModel) (cfg : GenConfig) :
    (generateHeader model cfg).map (fun out => (out.text, out.warnings)) =
      (headerPassages model cfg).map fun r => (r.1.flatMap Passage.text, r.2) := by
  have hparts : ((emitted cfg model).mapM (emitTable cfg)).map
        (List.map fun r => (render r.1, r.2)) =
      ((emitted cfg model).mapM (tablePassagesOf cfg)).map
        (List.map fun r => (r.1.flatMap Passage.text, r.2)) := by
    change (List.map _ <$> _ : Except ConfigError _) = List.map _ <$> _
    rw [map_mapM, map_mapM]
    exact congrArg (fun f => (emitted cfg model).mapM f) (funext (emitTable_eq cfg))
  have hall := congrArg (Except.map (headerOf model ((emitted cfg model).map Prod.snd))) hparts
  rw [generateHeader, headerPassages]
  cases checkClassNames (emitted cfg model) with
  | error e => rfl
  | ok _ =>
    refine Eq.trans ?_ (hall.trans ?_)
    · cases (emitted cfg model).mapM (emitTable cfg) with
      | error e => rfl
      | ok parts =>
        refine congrArg Except.ok (Prod.ext ?_ ?_)
        · change render _ = _
          simp only [render_append, render_flatMap, headerOf, List.flatMap_map]
        · simp only [headerOf, List.flatMap_map]
    · cases (emitted cfg model).mapM (tablePassagesOf cfg) with
      | error e => rfl
      | ok parts =>
        refine congrArg Except.ok (Prod.ext ?_ ?_)
        · simp only [headerOf, List.flatMap_map, List.flatMap_append, List.flatMap_singleton,
            Passage.text, List.flatMap_assoc]
        · simp only [headerOf, List.flatMap_map]

@[simp] theorem ColumnModel.plain_shape (col : ColumnModel) : col.plain.shape = col.shape := rfl

@[simp] theorem TableModel.plain_name (table : TableModel) : table.plain.name = table.name := rfl

section
variable (cfg : GenConfig)

@[simp] theorem tableConfigFor_plain (table : TableModel) :
    tableConfigFor cfg table.plain = tableConfigFor cfg table := rfl

theorem memberType_plain (ovr : Option ColumnOverride) (col : ColumnModel) (location : Text) :
    memberType cfg ovr col.plain location = memberType cfg ovr col location := rfl

theorem buildMembersFrom_cons (table : TableModel) (i : ℕ) (used : List Text) (col : ColumnModel)
    (cols : List ColumnModel) : buildMembersFrom table cfg i used (col :: cols) =
      memberType cfg ((tableConfigFor cfg table).bind fun t => t.columns (foldLower col.shape.name))
        col (locationOf table col) >>= fun type =>
      buildMembersFrom table cfg (i + 1) (memberName i used col :: used) cols >>= fun more =>
      pure (⟨memberName i used col, type.1, col, type.2.1⟩ :: more.1,
        type.2.2 ++ renameWarning i used table col ++ more.2) :=
  rfl

theorem buildMembersFrom_plain (table : TableModel) (i : ℕ) (used : List Text)
    (cols : List ColumnModel) :
    buildMembersFrom table.plain cfg i used (cols.map ColumnModel.plain) =
      (buildMembersFrom table cfg i used cols).map fun r => (r.1.map MemberInfo.plain, r.2) := by
  induction cols generalizing i used with
  | nil => rfl
  | cons col cols ih =>
    have hname : memberName i used col.plain = memberName i used col := rfl
    have hwarning : renameWarning i used table.plain col.plain = renameWarning i used table col := rfl
    have hlocation : locationOf table.plain col.plain = locationOf table col := rfl
    rw [List.map_cons, buildMembersFrom_cons, buildMembersFrom_cons, hname, hwarning, hlocation, ih,
      ColumnModel.plain_shape, tableConfigFor_plain, memberType_plain]
    cases memberType cfg ((tableConfigFor cfg table).bind fun t =>
        t.columns (foldLower col.shape.name)) col (locationOf table col) with
    | error e => rfl
    | ok type => cases buildMembersFrom table cfg (i + 1) (memberName i used col :: used) cols <;> rfl

theorem converterChecks_same (asserted : List Text) (members : List MemberInfo) :
    converterChecks asserted (members.map MemberInfo.plain) = converterChecks asserted members := by
  induction members generalizing asserted with
  | nil => rfl
  | cons m members ih =>
    rw [List.map_cons, converterChecks, converterChecks, ih, ih]
    rfl

theorem comments_program {α : Type} (text : α → Text) (l : List α) :
    (l.map fun a => Passage.comment (text a)).flatMap Passage.program = [] := by
  rw [List.flatMap_map]
  exact List.flatMap_eq_nil_iff.mpr fun _ _ => rfl

theorem tablePassages_plain (table : TableModel) (className : Text) (members : List MemberInfo) :
    (tablePassages table.plain className (members.map MemberInfo.plain)).flatMap Passage.program =
      (tablePassages table className members).flatMap Passage.program := by
  have hkeys : (table.foreignKeys.flatMap fkPassages).flatMap Passage.program = [] := by
    rw [List.flatMap_assoc]
    exact List.flatMap_eq_nil_iff.mpr fun fk _ => comments_program _ fk.columns
  have hindexes : (table.indexes.map indexPassage).flatMap Passage.program = [] :=
    comments_program _ table.indexes
  have hmembers : ((members.map MemberInfo.plain).flatMap memberPassages).flatMap Passage.program =
      (members.flatMap memberPassages).flatMap Passage.program := by
    rw [List.flatMap_map, List.flatMap_assoc, List.flatMap_assoc]
    rfl
  have hrest : tableRest table.plain className (members.map MemberInfo.plain) =
      tableRest table className members := by
    rw [tableRest, tableRest, converterChecks_same, List.flatMap_map]
    rfl
  rw [tablePassages, tablePassages, hrest]
  simp only [List.flatMap_append, hkeys, hindexes, hmembers]
  rfl

theorem tablePassagesOf_plain (p : TableModel × Text) :
    (tablePassagesOf cfg (p.1.plain, p.2)).map (fun r => (r.1.flatMap Passage.program, r.2)) =
      (tablePassagesOf cfg p).map fun r => (r.1.flatMap Passage.program, r.2) := by
  have hmembers : buildMembers p.1.plain cfg =
      (buildMembers p.1 cfg).map fun r => (r.1.map MemberInfo.plain, r.2) :=
    buildMembersFrom_plain cfg p.1 0 [] p.1.columns
  rw [tablePassagesOf, tablePassagesOf, hmembers]
  cases buildMembers p.1 cfg with
  | error e => rfl
  | ok r => exact congrArg (fun t => Except.ok (t, r.2)) (tablePassages_plain p.1 p.2 r.1)

theorem emitted_plain (model : SchemaModel) :
    emitted cfg model.plain = (emitted cfg model).map fun p => (p.1.plain, p.2) := by
  unfold emitted SchemaModel.plain
  rw [List.filterMap_map, List.map_filterMap]
  congr 1
  funext table
  have hclass : emittedClass cfg table.plain = emittedClass cfg table := rfl
  simp only [Function.comp_apply, hclass, Option.map_map]
  rfl

theorem checkClassNames_plain (l : List (TableModel × Text)) :
    checkClassNames (l.map fun p => (p.1.plain, p.2)) = checkClassNames l := by
  unfold checkClassNames
  simp only [List.map_map, List.filter_map]
  rfl

/-- What stands outside of comments, and what is warned of, is the same without them. -/
theorem headerPassages_plain (model : SchemaModel) :
    (headerPassages model.plain cfg).map (fun r => (r.1.flatMap Passage.program, r.2)) =
      (headerPassages model cfg).map fun r => (r.1.flatMap Passage.program, r.2) := by
  have hparts : ((emitted cfg model.plain).mapM (tablePassagesOf cfg)).map
        (List.map fun r => (r.1.flatMap Passage.program, r.2)) =
      ((emitted cfg model).mapM (tablePassagesOf cfg)).map
        (List.map fun r => (r.1.flatMap Passage.program, r.2)) := by
    change (List.map _ <$> _ : Except ConfigError _) = List.map _ <$> _
    rw [emitted_plain, map_mapM, map_mapM, List.mapM_map]
    exact congrArg (fun f => (emitted cfg model).mapM f)
      (funext (tablePassagesOf_plain cfg))
  have hall := congrArg (Except.map (headerOf model ((emitted cfg model).map Prod.snd))) hparts
  have hnames : (emitted cfg model.plain).map Prod.snd = (emitted cfg model).map Prod.snd := by
    rw [emitted_plain, List.map_map]
    rfl
  have hchecks : checkClassNames (emitted cfg model.plain) = checkClassNames (emitted cfg model) := by
    rw [emitted_plain, checkClassNames_plain]
  have hpassages (names : List Text) (x : Except ConfigError (List (List Passage × List Text))) :
      (x >>= fun parts => pure ([.code (render (preamble model.name))] ++ parts.flatMap Prod.fst ++
        [.code (render (closing model.name names))], parts.flatMap Prod.snd)).map
          (fun r => (r.1.flatMap Passage.program, r.2)) =
      (x.map (List.map fun r => (r.1.flatMap Passage.program, r.2))).map (headerOf model names) := by
    cases x with
    | error e => rfl
    | ok parts =>
      refine congrArg Except.ok (Prod.ext ?_ ?_)
      · simp only [headerOf, List.flatMap_map, List.flatMap_append, List.flatMap_singleton,
          Passage.program, List.flatMap_assoc]
      · simp only [headerOf, List.flatMap_map]
  rw [headerPassages, headerPassages, hnames, hchecks]
  cases checkClassNames (emitted cfg model) with
  | error e => rfl
  | ok _ => exact (hpassages _ _).trans (hall.trans (hpassages _ _).symm)

theorem headerPassages_of_ok {model : SchemaModel} {out : GeneratedOutput}
    (h : generateHeader model cfg = .ok out) :
    ∃ ps, headerPassages model cfg = .ok (ps, out.warnings) ∧
      out.text = ps.flatMap Passage.text := by
  have heq := generateHeader_eq model cfg
  rw [h] at heq
  obtain ⟨r, hr, htext⟩ := map_eq_ok.mp heq.symm
  obtain ⟨htext, hwarnings⟩ := Prod.ext_iff.mp htext
  exact ⟨r.1, hr.trans (congrArg (fun w => Except.ok (r.1, w)) hwarnings), htext.symm⟩

theorem ok_of_headerPassages {model : SchemaModel} {r : List Passage × List Text}
    (h : headerPassages model cfg = .ok r) :
    ∃ out, generateHeader model cfg = .ok out ∧ out.warnings = r.2 ∧
      out.text = r.1.flatMap Passage.text := by
  have heq := generateHeader_eq model cfg
  rw [h] at heq
  obtain ⟨out, hout, htext⟩ := map_eq_ok.mp heq
  obtain ⟨htext, hwarnings⟩ := Prod.ext_iff.mp htext
  exact ⟨out, hout, hwarnings, htext⟩

variable {cfg}

/-- Models that differ in defaults, foreign keys and indexes alone give headers with the same
warnings, and the same program where every such comment of either begins in code and is harmless;
a text that is not harmless changes what some text behind it is read as. -/
theorem comments_leave_the_program {a b : SchemaModel} (hsame : a.plain = b.plain)
    {out : GeneratedOutput} (hout : generateHeader a cfg = .ok out) :
    (∃ out' ps qs, generateHeader b cfg = .ok out' ∧ out'.warnings = out.warnings ∧
      headerPassages a cfg = .ok (ps, out.warnings) ∧
      headerPassages b cfg = .ok (qs, out.warnings) ∧
      (Passage.Calm .code ps → Passage.Calm .code qs →
        stripComments out.text = stripComments out'.text)) ∧
    ∀ t, Harmless t ↔ ∀ after, stripFrom .line (t ++ '\n' :: after) = stripFrom .code after := by
  refine ⟨?_, harmless_iff⟩
  obtain ⟨ps, hps, htext⟩ := headerPassages_of_ok cfg hout
  have hb := headerPassages_plain cfg b
  rw [← hsame, headerPassages_plain, hps] at hb
  obtain ⟨⟨qs, warnings⟩, hqs, hprogram⟩ := map_eq_ok.mp hb.symm
  obtain ⟨hcode, hwarnings⟩ := Prod.ext_iff.mp hprogram
  obtain ⟨out', hout', hwarnings', htext'⟩ := ok_of_headerPassages cfg hqs
  obtain rfl : warnings = out.warnings := hwarnings
  refine ⟨out', ps, qs, hout', hwarnings', hps, hqs, fun hcalm hcalm' => ?_⟩
  rw [htext, htext']
  exact hcalm.strip_eq hcalm' hcode.symm

end

/-- One table of one column with a default, and with none. -/
def withDefault (value : Option String) : SchemaModel :=
  .named ['d', 'b'] [⟨['t'], [⟨⟨['x'], .integer, true⟩, ['i', 'n', 't'], 0, 0, false,
    value.map String.toList⟩], [], []⟩]

/-- A default that stays in its line. -/
theorem quiet_default_leaves_the_program : ∃ out out',
    generateHeader (withDefault (some "'a'")) {} = .ok out ∧
    generateHeader (withDefault none) {} = .ok out' ∧
    stripComments out.text = stripComments out'.text := by
  obtain ⟨out', ps, qs, hout', -, hps, hqs, hstrip⟩ :=
    (@comments_leave_the_program {} (withDefault (some "'a'")) (withDefault none) rfl _ rfl).1
  refine ⟨_, out', rfl, hout', hstrip ?_ ?_⟩
  · rw [← (Prod.mk.inj (Except.ok.inj hps)).1]
    decide +kernel
  · rw [← (Prod.mk.inj (Except.ok.inj hqs)).1]
    decide +kernel

/-- The second line of a literal becomes code. -/
theorem default_over_two_lines : ∃ out out',
    (withDefault (some "'a\nb'")).plain = (withDefault none).plain ∧
    generateHeader (withDefault (some "'a\nb'")) {} = .ok out ∧
    generateHeader (withDefault none) {} = .ok out' ∧
    stripComments out.text ≠ stripComments out'.text := by
  refine ⟨_, _, rfl, rfl, rfl, ?_⟩
  decide +kernel

end Uniorm.Gen
