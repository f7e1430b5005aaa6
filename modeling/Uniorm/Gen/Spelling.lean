import Uniorm.Foundation.Action
import Uniorm.Gen.Header

/-! # What a compiler reads of the generated header

The names of the header are identifiers and its literals stand for the names of
the catalog exactly when these names have no other characters than letters,
digits and the separators of words. Any other character is copied into the name
of a class or a member, and a quote or a backslash ends or changes a literal.
-/
namespace Uniorm.Gen

open Foundation Sql Builder Cpp

def literals (chunks : List Chunk) : List Text :=
  chunks.filterMap fun
    | .literal t => some t
    | _ => none

def names (chunks : List Chunk) : List Text :=
  chunks.filterMap fun
    | .name t => some t
    | _ => none

/-- The literals as they are read where they stand. A literal that does not end where it was to
end is none. -/
def decoded : List Chunk → List (Option Text)
  | [] => []
  | .literal t :: chunks =>
    ((readLiteral (render (.literal t :: chunks))).bind fun r =>
      if r.2 = render chunks then some r.1 else none) :: decoded chunks
  | .raw _ :: chunks => decoded chunks
  | .name _ :: chunks => decoded chunks

section
variable (s : String) (t : Text) (chunks : List Chunk)

@[simp] theorem literals_nil : literals [] = [] := rfl

@[simp] theorem literals_raw : literals (.raw t :: chunks) = literals chunks := rfl

@[simp] theorem literals_lit : literals (.lit s :: chunks) = literals chunks := rfl

@[simp] theorem literals_name : literals (.name t :: chunks) = literals chunks := rfl

@[simp] theorem literals_literal : literals (.literal t :: chunks) = t :: literals chunks := rfl

@[simp] theorem names_nil : names [] = [] := rfl

@[simp] theorem names_raw : names (.raw t :: chunks) = names chunks := rfl

@[simp] theorem names_lit : names (.lit s :: chunks) = names chunks := rfl

@[simp] theorem names_name : names (.name t :: chunks) = t :: names chunks := rfl

@[simp] theorem names_literal : names (.literal t :: chunks) = names chunks := rfl

end

@[simp] theorem literals_append (a b : List Chunk) : literals (a ++ b) = literals a ++ literals b :=
  List.filterMap_append

@[simp] theorem names_append (a b : List Chunk) : names (a ++ b) = names a ++ names b :=
  List.filterMap_append

theorem literals_flatMap {α : Type*} (l : List α) (f : α → List Chunk) :
    literals (l.flatMap f) = l.flatMap fun a => literals (f a) := by
  induction l with
  | nil => rfl
  | cons a l ih => rw [List.flatMap_cons, literals_append, ih, List.flatMap_cons]

theorem names_flatMap {α : Type*} (l : List α) (f : α → List Chunk) :
    names (l.flatMap f) = l.flatMap fun a => names (f a) := by
  induction l with
  | nil => rfl
  | cons a l ih => rw [List.flatMap_cons, names_append, ih, List.flatMap_cons]

/-- Every literal is read as it was written exactly when its characters stand for themselves. -/
theorem decoded_eq_iff (chunks : List Chunk) :
    decoded chunks = (literals chunks).map some ↔
      ∀ t ∈ literals chunks, t.all isLiteralChar = true := by
  induction chunks with
  | nil => simp [decoded, literals]
  | cons chunk chunks ih =>
    cases chunk with
    | raw t => exact ih
    | name t => exact ih
    | literal t =>
      have htext : render (.literal t :: chunks) = '"' :: (t ++ '"' :: render chunks) := by
        simp [render, Chunk.text]
      have hread : ((readLiteral (render (.literal t :: chunks))).bind fun r =>
          if r.2 = render chunks then some r.1 else none) = some t ↔
          t.all isLiteralChar = true := by
        rw [htext, ← @readLiteral_eq_iff t (render chunks), Option.bind_eq_some_iff]
        constructor
        · rintro ⟨r, hr, hsome⟩
          split_ifs at hsome with hrest
          rw [hr, ← Option.some.inj hsome, ← hrest]
        · intro h
          exact ⟨(t, render chunks), h, if_pos rfl⟩
      have hliterals : literals (.literal t :: chunks) = t :: literals chunks := rfl
      rw [decoded, hliterals, List.map_cons, List.cons.injEq, hread, ih, List.forall_mem_cons]

/-- What the loop leaves: the columns in order, each under its own name or a numbered one. -/
theorem buildMembersFrom_spec {table : TableModel} {cfg : GenConfig} {i : ℕ} {used : List Text}
    {cols : List ColumnModel} {r : List MemberInfo × List Text}
    (h : buildMembersFrom table cfg i used cols = .ok r) :
    r.1.map MemberInfo.col = cols ∧ ∀ m ∈ r.1, m.member = toCamelCase m.col.shape.name ∨
      ∃ k, m.member = toCamelCase m.col.shape.name ++ numeral k := by
  induction cols generalizing i used r with
  | nil =>
    obtain rfl := Except.ok.inj h
    exact ⟨rfl, fun _ hm => absurd hm List.not_mem_nil⟩
  | cons col cols ih =>
    obtain ⟨type, _, hmore⟩ := bind_eq_ok.mp h
    obtain ⟨more, hfrom, hall⟩ := bind_eq_ok.mp hmore
    obtain rfl := Except.ok.inj hall
    obtain ⟨hcols, hnames⟩ := ih hfrom
    refine ⟨congrArg (col :: ·) hcols, ?_⟩
    intro m hm
    rcases List.mem_cons.mp hm with rfl | hm
    · dsimp only
      unfold memberName
      split_ifs with hused
      · exact Or.inr ⟨i, rfl⟩
      · exact Or.inl rfl
    · exact hnames m hm

theorem isIdentifier_numbered (name : Text) (k : ℕ) :
    isIdentifier (toCamelCase name ++ numeral k) = name.all isNameChar := by
  have hdigits : (numeral k).all isIdentifierChar = true := by
    rw [List.all_eq_true]
    intro c hc
    simp [isIdentifierChar, Char.isAlphanum, isDigit_of_mem_numeral hc]
  rw [← toCamelCase_isIdentifier, Bool.eq_iff_iff]
  constructor
  · intro h
    have hall := all_of_isIdentifier h
    rw [List.all_append, Bool.and_eq_true] at hall
    exact isIdentifier_of_all_fixIdentifier hall.1
  · intro h
    rw [isIdentifier_append h, hdigits]

/-- A member is usable exactly when its column has no other characters than those of names. -/
theorem member_usable {m : MemberInfo} (h : m.member = toCamelCase m.col.shape.name ∨
    ∃ k, m.member = toCamelCase m.col.shape.name ++ numeral k) :
    Usable m.member ↔ m.col.shape.name.all isNameChar = true := by
  rcases h with h | ⟨k, h⟩
  · rw [h, ← toCamelCase_isIdentifier]
    exact ⟨Usable.identifier, fun hid => ⟨hid, fixIdentifier_notKeyword _⟩⟩
  · rw [h, ← isIdentifier_numbered _ k]
    constructor
    · exact Usable.identifier
    · intro hid
      refine ⟨hid, not_keyword_of_getLast? (c := (numeral k).getLast (numeral_ne_nil k)) ?_ ?_⟩
      · rw [List.getLast?_append_of_ne_nil _ (numeral_ne_nil k), List.getLast?_eq_some_getLast]
      · exact Or.inr (isDigit_of_mem_numeral (List.getLast_mem _))

theorem converterChecks_plain (asserted : List Text) (members : List MemberInfo) :
    names (converterChecks asserted members) = [] ∧
      literals (converterChecks asserted members) = [] := by
  induction members generalizing asserted with
  | nil => exact ⟨rfl, rfl⟩
  | cons m members ih =>
    rw [converterChecks]
    split_ifs
    · exact ih asserted
    · exact ih _

/-- Comments have neither names nor literals. -/
theorem raw_plain {α : Type*} (text : α → Text) (l : List α) :
    names (l.map fun a => .raw (text a)) = [] ∧ literals (l.map fun a => .raw (text a)) = [] := by
  induction l with
  | nil => exact ⟨rfl, rfl⟩
  | cons a l ih => exact ih

theorem fkLines_plain (keys : List FkModel) :
    names (keys.flatMap fkLines) = [] ∧ literals (keys.flatMap fkLines) = [] := by
  rw [names_flatMap, literals_flatMap, List.flatMap_eq_nil_iff, List.flatMap_eq_nil_iff]
  exact ⟨fun _ _ => (raw_plain _ _).1, fun _ _ => (raw_plain _ _).2⟩

theorem indexLines_plain (indexes : List IndexModel) :
    names (indexes.map indexLine) = [] ∧ literals (indexes.map indexLine) = [] := raw_plain _ _

@[simp] theorem literals_memberLine (m : MemberInfo) : literals (memberLine m) = [] := rfl

@[simp] theorem names_memberLine (m : MemberInfo) : names (memberLine m) = [m.member] := rfl

@[simp] theorem literals_columnCall (className : Text) (m : MemberInfo) :
    literals (columnCall className m) = [m.col.shape.name] := rfl

@[simp] theorem names_columnCall (className : Text) (m : MemberInfo) :
    names (columnCall className m) = [className, m.member] := rfl

theorem literals_tableChunks (table : TableModel) (className : Text) (members : List MemberInfo) :
    literals (tableChunks table className members) =
      table.name :: members.map fun m => m.col.shape.name := by
  simp only [tableChunks, literals_append, (fkLines_plain _).2, (indexLines_plain _).2,
    (converterChecks_plain _ _).2, literals_flatMap, literals_nil, literals_raw, literals_lit,
    literals_name, literals_literal, literals_memberLine, literals_columnCall, List.nil_append,
    List.append_nil]
  have hnone : (members.flatMap fun _ => ([] : List Text)) = [] := by simp
  rw [hnone, List.nil_append]
  exact congrArg (table.name :: ·) (List.flatMap_pure_eq_map _ members)

theorem mem_names_tableChunks {table : TableModel} {className n : Text}
    {members : List MemberInfo} :
    n ∈ names (tableChunks table className members) ↔
      n = className ∨ n = mappingName className ∨ ∃ m ∈ members, n = m.member := by
  simp only [tableChunks, names_append, (fkLines_plain _).1, (indexLines_plain _).1,
    (converterChecks_plain _ _).1, names_flatMap, names_nil, names_raw, names_lit, names_name,
    names_literal, names_memberLine, names_columnCall, List.nil_append, List.append_nil]
  simp only [List.mem_append, List.mem_flatMap, List.mem_cons, List.not_mem_nil, or_false]
  constructor
  · rintro (((hclass | ⟨m, hm, rfl⟩) | hmapping | hclass) | ⟨m, hm, hclass | rfl⟩)
    · exact Or.inl hclass
    · exact Or.inr (Or.inr ⟨m, hm, rfl⟩)
    · exact Or.inr (Or.inl hmapping)
    · exact Or.inl hclass
    · exact Or.inl hclass
    · exact Or.inr (Or.inr ⟨m, hm, rfl⟩)
  · rintro (hclass | hmapping | ⟨m, hm, rfl⟩)
    · exact Or.inl (Or.inl (Or.inl hclass))
    · exact Or.inl (Or.inr (Or.inl hmapping))
    · exact Or.inr ⟨m, hm, Or.inr rfl⟩

/-- The names of the tables and columns that are to be mapped. -/
def wanted (cfg : GenConfig) (model : SchemaModel) : List Text :=
  (emitted cfg model).flatMap fun p => p.1.name :: p.1.columns.map fun col => col.shape.name

/-- Every name of the header can name something, and its literals are the names of the model. -/
structure Faithful (cfg : GenConfig) (model : SchemaModel) (out : GeneratedOutput) : Prop where
  names : ∀ n ∈ names out.chunks, Usable n
  literals : decoded out.chunks = (wanted cfg model).map some

/-- The tables that are emitted, and their columns, have only characters of names. -/
def Nameable (cfg : GenConfig) (model : SchemaModel) : Prop :=
  ∀ p ∈ emitted cfg model, p.1.name.all isNameChar = true ∧
    ∀ col ∈ p.1.columns, col.shape.name.all isNameChar = true

theorem registered_usable {name : Text} (last : Text) (h : name.all isIdentifierChar = true)
    (hlast : last.all isIdentifierChar = true) :
    Usable ("register_".toList ++ name ++ last) := by
  constructor
  · have hregister : isIdentifier "register_".toList = true := by decide
    rw [List.append_assoc, isIdentifier_append hregister, List.all_append, h, hlast]
    rfl
  · have hkeyword : ∀ k ∈ keywords, "register_".toList.isPrefixOf k = false := by decide
    intro hmem
    have hprefix := hkeyword _ hmem
    rw [List.append_assoc, List.isPrefixOf_iff_prefix.mpr (List.prefix_append _ _)] at hprefix
    cases hprefix

theorem isLiteralChar_of_isNameChar {c : Char} (h : isNameChar c = true) :
    isLiteralChar c = true := by
  have hne : ∀ d, isNameChar d = false → (c != d) = true := by
    intro d hd
    rw [bne_iff_ne]
    rintro rfl
    rw [h] at hd
    cases hd
  rw [isLiteralChar, hne '"' (by decide), hne '\n' (by decide), hne '\r' (by decide),
    hne '\\' (by decide)]
  rfl

/-- What is known of a table's chunks: its columns in order, under usable names if they have only
characters of names. -/
theorem emitTable_spec {cfg : GenConfig} {p : TableModel × Text} {r : List Chunk × List Text}
    (hclass : p.2 = toPascalCase p.1.name) (h : emitTable cfg p = .ok r) :
    literals r.1 = p.1.name :: (p.1.columns.map fun col => col.shape.name) ∧
    ((∀ n ∈ names r.1, Usable n) ↔ p.1.name.all isNameChar = true ∧
      ∀ col ∈ p.1.columns, col.shape.name.all isNameChar = true) := by
  obtain ⟨members, hmembers, hall⟩ := bind_eq_ok.mp h
  obtain rfl := Except.ok.inj hall
  obtain ⟨hcols, hnames⟩ := buildMembersFrom_spec hmembers
  constructor
  · rw [literals_tableChunks, ← hcols, List.map_map]
    rfl
  · constructor
    · intro husable
      constructor
      · rw [← toPascalCase_isIdentifier, ← hclass]
        exact (husable _ (mem_names_tableChunks.mpr (Or.inl rfl))).identifier
      · intro col hcol
        rw [← hcols] at hcol
        obtain ⟨m, hm, rfl⟩ := List.mem_map.mp hcol
        rw [← member_usable (hnames m hm)]
        exact husable _ (mem_names_tableChunks.mpr (Or.inr (Or.inr ⟨m, hm, rfl⟩)))
    · rintro ⟨htable, hcolumns⟩ n hn
      have hid : isIdentifier p.2 = true := by rw [hclass, toPascalCase_isIdentifier, htable]
      rcases mem_names_tableChunks.mp hn with rfl | rfl | ⟨m, hm, rfl⟩
      · refine ⟨hid, ?_⟩
        rw [hclass]
        exact fixIdentifier_notKeyword _
      · exact registered_usable _ (all_of_isIdentifier hid) (by decide)
      · apply (member_usable (hnames m hm)).mpr
        apply hcolumns
        rw [← hcols]
        exact List.mem_map_of_mem hm

def GenConfig.NoClassNames (cfg : GenConfig) : Prop :=
  ∀ key tcfg, cfg.tables key = some tcfg → tcfg.className = none

theorem emitted_class {cfg : GenConfig} {model : SchemaModel} (hcfg : cfg.NoClassNames)
    {p : TableModel × Text} (hp : p ∈ emitted cfg model) : p.2 = toPascalCase p.1.name := by
  obtain ⟨table, _, hsome⟩ := List.mem_filterMap.mp hp
  obtain ⟨name, hname, rfl⟩ := Option.map_eq_some_iff.mp hsome
  rw [emittedClass] at hname
  cases hfound : tableConfigFor cfg table with
  | none =>
    rw [hfound] at hname
    exact (Option.some.inj hname).symm
  | some tcfg =>
    rw [hfound] at hname
    dsimp only at hname
    split_ifs at hname
    rw [hcfg _ _ hfound] at hname
    exact (Option.some.inj hname).symm

theorem literals_preamble (unit : Text) : literals (preamble unit) = [] := rfl

theorem names_preamble (unit : Text) : names (preamble unit) = [unit] := rfl

theorem literals_closing (unit : Text) (classNames : List Text) :
    literals (closing unit classNames) = [] := by
  have hcalls : literals (classNames.flatMap registerCall) = [] := by
    rw [literals_flatMap, List.flatMap_eq_nil_iff]
    exact fun _ _ => rfl
  rw [closing, literals_append, literals_append, hcalls]
  rfl

theorem names_closing (unit : Text) (classNames : List Text) :
    names (closing unit classNames) = schemaName unit :: classNames.map mappingName := by
  have hcalls : names (classNames.flatMap registerCall) = classNames.map mappingName := by
    rw [names_flatMap]
    exact List.flatMap_pure_eq_map mappingName classNames
  rw [closing, names_append, names_append, hcalls]
  exact List.append_nil _

theorem literals_parts {cfg : GenConfig} {l : List (TableModel × Text)}
    {parts : List (List Chunk × List Text)}
    (hclass : ∀ p ∈ l, p.2 = toPascalCase p.1.name)
    (h : List.Forall₂ (fun p r => emitTable cfg p = .ok r) l parts) :
    literals (parts.flatMap Prod.fst) =
      l.flatMap fun p => p.1.name :: p.1.columns.map fun col => col.shape.name := by
  induction h with
  | nil => rfl
  | cons hone _ ih =>
    have hfirst := (emitTable_spec (hclass _ List.mem_cons_self) hone).1
    have hmore := ih fun p hp => hclass p (List.mem_cons_of_mem _ hp)
    rw [List.flatMap_cons, literals_append, hfirst, hmore, List.flatMap_cons]

theorem names_parts {cfg : GenConfig} {l : List (TableModel × Text)}
    {parts : List (List Chunk × List Text)}
    (hclass : ∀ p ∈ l, p.2 = toPascalCase p.1.name)
    (h : List.Forall₂ (fun p r => emitTable cfg p = .ok r) l parts) :
    (∀ n ∈ names (parts.flatMap Prod.fst), Usable n) ↔ ∀ p ∈ l, p.1.name.all isNameChar = true ∧
      ∀ col ∈ p.1.columns, col.shape.name.all isNameChar = true := by
  induction h with
  | nil => simp
  | cons hone _ ih =>
    have hfirst := (emitTable_spec (hclass _ List.mem_cons_self) hone).2
    have hmore := ih fun p hp => hclass p (List.mem_cons_of_mem _ hp)
    rw [List.flatMap_cons, names_append, List.forall_mem_append, hfirst, hmore,
      List.forall_mem_cons]

/-- Without overrides of class names a header is as it should be exactly when the catalog has no
name with another character than letters, digits and separators. -/
theorem header_faithful_iff {cfg : GenConfig} {model : SchemaModel} {out : GeneratedOutput}
    (hcfg : cfg.NoClassNames) (h : generateHeader model cfg = .ok out) :
    Faithful cfg model out ↔ Nameable cfg model := by
  obtain ⟨_, _, hmore⟩ := bind_eq_ok.mp h
  obtain ⟨parts, hparts, hall⟩ := bind_eq_ok.mp hmore
  obtain rfl := Except.ok.inj hall
  have hclass : ∀ p ∈ emitted cfg model, p.2 = toPascalCase p.1.name :=
    fun p hp => emitted_class hcfg hp
  have htables := forall₂_of_mapM hparts
  have hliterals : literals (preamble model.name ++ parts.flatMap Prod.fst ++
      closing model.name ((emitted cfg model).map Prod.snd)) = wanted cfg model := by
    rw [literals_append, literals_append, literals_preamble, literals_closing,
      literals_parts hclass htables, List.append_nil]
    rfl
  have hnames := names_parts hclass htables
  constructor
  · intro hfaithful
    apply hnames.mp
    intro n hn
    apply hfaithful.names
    rw [names_append, names_append]
    exact List.mem_append_left _ (List.mem_append_right _ hn)
  · intro hnameable
    constructor
    · intro n hn
      rw [names_append, names_append, names_preamble, names_closing] at hn
      rcases List.mem_append.mp hn with hn | hn
      · rcases List.mem_append.mp hn with hn | hn
        · rw [List.mem_singleton.mp hn]
          exact model.usable
        · exact hnames.mpr hnameable n hn
      · rcases List.mem_cons.mp hn with rfl | hn
        · exact registered_usable _ (all_of_isIdentifier model.usable.identifier) (by decide)
        · obtain ⟨className, hmem, rfl⟩ := List.mem_map.mp hn
          obtain ⟨p, hp, rfl⟩ := List.mem_map.mp hmem
          have hid : isIdentifier p.2 = true := by
            rw [hclass p hp, toPascalCase_isIdentifier, (hnameable p hp).1]
          exact registered_usable _ (all_of_isIdentifier hid) (by decide)
    · rw [← hliterals, decoded_eq_iff, hliterals]
      have hplain : ∀ t : Text, t.all isNameChar = true → t.all isLiteralChar = true := by
        intro t ht
        rw [List.all_eq_true] at ht ⊢
        exact fun c hc => isLiteralChar_of_isNameChar (ht c hc)
      intro t ht
      obtain ⟨p, hp, hmem⟩ := List.mem_flatMap.mp ht
      rcases List.mem_cons.mp hmem with rfl | hcol
      · exact hplain _ (hnameable p hp).1
      · obtain ⟨col, hmapped, rfl⟩ := List.mem_map.mp hcol
        exact hplain _ ((hnameable p hp).2 col hmapped)

def single (table column : String) : SchemaModel :=
  .named ['d', 'b'] [⟨table.toList, [⟨⟨column.toList, .integer, false⟩, ['i', 'n', 't'], 0, 0,
    true, none⟩], [], []⟩]

/-- A name with a digit in front, and one that is a keyword. -/
theorem single_faithful : ∃ out, generateHeader (single "2nd.order" "class") {} = .ok out ∧
    Nameable {} (single "2nd.order" "class") ∧ Faithful {} (single "2nd.order" "class") out := by
  have hnameable : Nameable {} (single "2nd.order" "class") := by
    intro p hp
    obtain rfl := List.mem_singleton.mp hp
    exact ⟨by decide, by decide⟩
  have hcfg : GenConfig.NoClassNames {} := fun _ _ hfound => absurd hfound (by simp)
  exact ⟨_, rfl, hnameable, (header_faithful_iff hcfg rfl).mpr hnameable⟩

/-- The dollar sign of a column goes into the name of its member, and a quote ends its literal. -/
theorem dollar_and_quote_unfaithful : ∃ out,
    generateHeader (single "t" "a$\"b") {} = .ok out ∧ ¬ Faithful {} (single "t" "a$\"b") out := by
  refine ⟨_, rfl, ?_⟩
  have hcfg : GenConfig.NoClassNames {} := fun _ _ hfound => absurd hfound (by simp)
  rw [header_faithful_iff hcfg rfl]
  intro hnameable
  have hcolumn := (hnameable _ (List.mem_singleton.mpr rfl)).2 _ (List.mem_singleton.mpr rfl)
  exact absurd hcolumn (by decide)

end Uniorm.Gen
