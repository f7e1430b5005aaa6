import Uniorm.Ddl.Blames
import Uniorm.Ddl.Run

/-! # The parser ends

Every reader ends on every text. A reader of a list or of clauses goes round
only behind a word, a name or a punctuation that it took, and the script behind
a statement is shorter than the one in front of it.
-/
namespace Uniorm.Ddl

open Foundation Foundation.Scan Sql Builder Schema

variable [Dangling]

variable {text rest : Text}

theorem ends_tableName : tableName.Ends blame := by
  refine fun text => EndsBehind.endsOn (.bind (ends_qualified text) fun parts taken rest hread htext => ?_)
  refine .ite (fun hlong => .fail (.parts List.suffix_rfl ?_ hlong)) fun _ =>
    (Ends.pure parts rest).endsBehind
  rwa [List.nil_append, ← htext]

theorem ends_opensListWithin (terms : ℕ) : (opensListWithin terms).Ends blame := by
  induction terms with
  | zero => exact .pure _
  | succ terms ih =>
    exact .bind (ends_peekIs '(') fun _ => .ite (.pure _) <|
      .bind ends_eatOptionalName fun _ => .ite ih (.pure _)

theorem ends_opensAKeyList (lead : Text) : (opensAKeyList lead).Ends blame := fun text =>
  .ahead (Ends.bind (ends_eatKeyword lead) (fun _ => .ite (ends_opensListWithin 3) (.pure _)) text)

theorem ends_anyOf {probes : List (Reading Bool)} (h : ∀ probe ∈ probes, probe.Ends blame) :
    (anyOf probes).Ends blame := by
  induction probes with
  | nil => exact .pure _
  | cons probe probes ih =>
    exact .bind (h probe List.mem_cons_self) fun _ =>
      .ite (.pure _) (ih fun probe hprobe => h probe (List.mem_cons_of_mem _ hprobe))

theorem ends_constraintLead : constraintLead.Ends blame := by
  refine ends_anyOf fun probe hprobe => ?_
  rcases List.mem_append.mp hprobe with hprobe | hprobe
  · obtain ⟨word, -, rfl⟩ := List.mem_map.mp hprobe
    exact ends_peekKeyword word
  · simp only [List.mem_cons, List.not_mem_nil, or_false] at hprobe
    rcases hprobe with rfl | rfl | rfl <;> exact ends_opensAKeyList _

theorem ends_readReferences (locals : List Text) : (readReferences locals).Ends blame := by
  refine .bind (ends_eatKeyword _) fun _ => .bind ends_tableName fun target => ?_
  have hwaits : (skipItem >>= fun _ => pure [.pending target locals] : Reading (List Edit)).Ends blame :=
    .bind ends_skipItem fun _ => .pure _
  refine .bind (ends_peekIs '(') fun _ => .ite (fun text => ?_) fun text => ?_
  swap
  · refine .bind (Ends.pure [] text) fun columns rest hnone => ?_
    obtain ⟨rfl, rfl⟩ := Prod.mk.inj (Option.some.inj hnone)
    exact hwaits text
  refine EndsBehind.endsOn (.bind (ends_nameList text) fun columns taken rest hread htext => ?_)
  refine .ite (fun _ => (hwaits rest).endsBehind) fun _ => .ite (fun hwidth => ?_) fun _ => ?_
  · refine .fail (.width _ _ List.suffix_rfl ?_ hwidth)
    rwa [List.nil_append, ← htext]
  · exact (Ends.bind ends_skipItem (fun _ => .pure _) rest).endsBehind

theorem ends_readKeyColumnsThenReferences : readKeyColumnsThenReferences.Ends blame :=
  .bind (ends_peekIs '(') fun _ =>
    .ite (.bind ends_nameList fun _ => ends_readReferences _) (ends_readReferences _)

theorem ends_readArguments (row : ColumnRow) : (readArguments row).Ends blame := by
  refine .loop (fun state => ?_) (fun state => ?_) _
  · exact .bind (ends_eat ')') fun _ => .ite (.pure _) <| .bind ends_value fun _ =>
      .bind (ends_eat ',') fun _ => .ite (.pure _) (.bind (ends_expect ')') fun _ => .pure _)
  · refine .bind (shortens_eat ')') fun closed hclosed => ?_
    rw [if_neg hclosed]
    exact .first shortens_value

omit [Dangling] in
theorem read_peekWord {word : Text} (h : peekWord.read text = some (word, rest)) :
    Settled rest ∧ word = wordOf rest := by
  rw [peekWord, read_bind] at h
  obtain ⟨⟨u, text'⟩, hskip, h⟩ := Option.bind_eq_some_iff.mp h
  obtain ⟨rfl, rfl⟩ := Prod.mk.inj (Option.some.inj h)
  exact ⟨settled_of_skipBlanks hskip, rfl⟩

theorem ends_readPhrase (phrase : Text) : (readPhrase phrase).Ends blame := by
  refine .loop (fun phrase => ?_) (fun phrase => ?_) _
  · exact .bind ends_peekWord fun _ => .ite (.pure _) (.bind ends_takeWord fun _ => .pure _)
  · intro text next rest h
    rw [read_bind] at h
    obtain ⟨⟨word, settled⟩, hpeek, h⟩ := Option.bind_eq_some_iff.mp h
    obtain ⟨hsettled, rfl⟩ := read_peekWord hpeek
    refine Nat.lt_of_lt_of_le ?_ (read_length_le hpeek)
    rw [read_ite] at h
    split_ifs at h with hstop
    · cases h
    · rw [Bool.or_eq_true, not_or, decide_eq_true_eq] at hstop
      have hne : settled ≠ [] := by
        rintro rfl
        exact hstop.1 rfl
      have htake : takeWord.read settled = some ((), settled.drop (wordOf settled).length) := by
        simp [takeWord, peekWord, hsettled.read_skipBlanks]
      rw [read_bind, htake] at h
      obtain rfl := (Prod.mk.inj (Option.some.inj h)).2
      exact length_lt_of_drop (List.length_pos_iff.mpr hstop.1) hne

theorem ends_skipSigns : skipSigns.Ends blame := by
  refine .loop (fun _ => .bind (ends_eatOneOf _) fun _ => .pure _) (fun _ => ?_) ()
  refine .bind (shortens_eatOneOf (by decide)) fun there hthere => ?_
  rw [if_neg hthere]
  exact .done _

def typeEnd (row : ColumnRow) (phrase : Text) : Reading ColumnRow :=
  skipSigns >>= fun _ => peekIs '[' >>= fun array =>
    if array then
      fail ("column '".toList ++ row.shape.name ++ "' has type '".toList ++ phrase ++
        "[]': the v1 binding set carries no arrays".toList)
    else
      pure { row with
        typeName := phrase
        shape.type := sqlTypeOf phrase
        shape.nullable := row.shape.nullable && !serialTypes.contains phrase }

theorem ends_typeEnd (row : ColumnRow) (phrase : Text) : (typeEnd row phrase).Ends blame := by
  refine .bind ends_skipSigns fun _ text => ?_
  refine .bind (ends_peekIs '[' text) fun array rest hread => ?_
  refine .ite (fun harray => .fail (.array _ _ ?_)) fun _ => Ends.pure _ rest
  rw [(read_peekIs hread).2, beq_iff_eq] at harray
  exact harray

theorem ends_readType (row : ColumnRow) : (readType row).Ends blame := by
  refine .bind ends_qualified fun _ => .bind (ends_eat '(') fun _ => ?_
  refine .ite (.bind (ends_readArguments row) fun row => ?_) (.bind (.pure _) fun row => ?_) <;>
  · refine .bind (ends_readPhrase _) fun phrase => ?_
    refine .ite (.bind (.pure _) fun _ => ?_) (.bind (ends_eat '(') fun _ => ?_) <;>
    refine .ite (.bind (ends_readArguments _) fun row => ?_) (.bind (.pure _) fun row => ?_) <;>
    exact ends_typeEnd row phrase

/-- A list in parentheses, where one stands next. -/
theorem ends_checkList : Clause.checkList.Ends blame := by
  intro text
  refine .bind (ends_peekIs '(' text) fun listed rest hread => .ite (fun hlisted => ?_) fun _ => ?_
  · refine endsOn_skipBalanced ?_
    rw [(read_peekIs hread).2, beq_iff_eq] at hlisted
    exact hlisted
  · exact Ends.pure _ rest

/-- A list is skipped only where one stands next. -/
theorem endsOn_listThen {α : Type} {x : Reading α} (hx : x.Ends blame) {listed : Bool}
    (h : listed = true → text.head? = some '(') :
    (if listed = true then skipBalanced >>= fun _ => x else x).EndsOn blame text := by
  refine .ite (fun hlisted => ?_) fun _ => hx text
  exact .bind (endsOn_skipBalanced (h hlisted)) fun _ rest _ => hx rest

omit [Dangling] in
theorem read_skipBlanks_of_peekIs {ch : Char} {there : Bool}
    (h : (peekIs ch).read text = some (there, rest)) : skipBlanks.read text = some ((), rest) := by
  rw [peekIs, read_bind] at h
  obtain ⟨⟨u, settled⟩, hskip, h⟩ := Option.bind_eq_some_iff.mp h
  obtain ⟨-, rfl⟩ := Prod.mk.inj (Option.some.inj h)
  exact hskip

omit [Dangling] in
theorem read_eatKeyword_missing {word : Text}
    (h : (eatKeyword word).read text = some (false, rest)) :
    skipBlanks.read text = some ((), rest) ∧ startsKeyword word rest = false := by
  rw [eatKeyword, read_bind] at h
  obtain ⟨⟨there, text'⟩, hpeek, h⟩ := Option.bind_eq_some_iff.mp h
  rw [peekKeyword, read_bind] at hpeek
  obtain ⟨⟨u, settled⟩, hskip, hpeek⟩ := Option.bind_eq_some_iff.mp hpeek
  obtain ⟨hstarts, rfl⟩ := Prod.mk.inj (Option.some.inj hpeek)
  cases there with
  | true => cases h
  | false =>
    obtain ⟨-, rfl⟩ := Prod.mk.inj (Option.some.inj h)
    exact ⟨hskip, hstarts⟩

theorem ends_readGenerated (column : Text) : (readGenerated column).Ends blame := by
  have hstored : ∀ expression : Bool, (eatKeywords (["stored", "virtual"].map String.toList) >>= fun _ =>
      pure (if expression = true then
        [.note ("generated column '".toList ++ column ++
          "' is emitted as a plain column: reading it works, writing it does not".toList)]
      else []) : Reading (List Edit)).Ends blame :=
    fun expression => .bind (ends_eatKeywords _) fun _ => .pure _
  -- where the clause is one that is supported
  have hend : ∀ stop expression : Bool, stop = false → ((if stop = true then
      fail ("unsupported GENERATED clause on column '".toList ++ column ++ ['\''])
    else eatKeywords (["stored", "virtual"].map String.toList) >>= fun _ =>
      pure (if expression = true then
        [.note ("generated column '".toList ++ column ++
          "' is emitted as a plain column: reading it works, writing it does not".toList)]
      else [])) : Reading (List Edit)).Ends blame := by
    rintro stop expression rfl
    exact hstored expression
  have hlist : ∀ {text rest : Text} {expression : Bool}, (peekIs '(').read text = some (expression, rest) →
      expression = true → rest.head? = some '(' := by
    intro text rest expression hread hlisted
    rw [(read_peekIs hread).2, beq_iff_eq] at hlisted
    exact hlisted
  refine .bind (ends_eatKeyword _) fun _ => .ite (.bind (ends_eatKeywords _) fun _ => ?_) ?_ <;>
  · intro text
    refine EndsBehind.endsOn (.bind (ends_eatKeyword _ text) fun as word rest has htext => ?_)
    cases as with
    | false =>
      refine EndsOn.endsBehind (.bind (Ends.pure false rest) fun identity rest hfalse => ?_)
      obtain ⟨rfl, rfl⟩ := Prod.mk.inj (Option.some.inj hfalse)
      refine .bind (ends_peekIs '(' rest) fun expression rest hread => ?_
      exact endsOn_listThen (hend _ expression rfl) (hlist hread)
    | true =>
      refine .bind (ends_eatKeyword _ rest) fun identity gap settled hidentity hgap => ?_
      cases identity with
      | true =>
        refine EndsOn.endsBehind (.bind (Ends.pure false settled) fun expression rest hfalse => ?_)
        obtain ⟨rfl, rfl⟩ := Prod.mk.inj (Option.some.inj hfalse)
        exact hend _ false rfl settled
      | false =>
        refine .bind (ends_peekIs '(' settled) fun expression none last hread hlast => ?_
        cases expression with
        | true => exact (endsOn_listThen (hend _ true rfl) (hlist hread)).endsBehind
        | false =>
          -- no blank stands in front of what is no list
          have hsame : last = settled := by
            have hskip := read_skipBlanks_of_peekIs hread
            rw [(settled_of_skipBlanks (read_eatKeyword_missing hidentity).1).read_skipBlanks] at hskip
            exact (Prod.mk.inj (Option.some.inj hskip)).2.symm
          have has' : (eatKeyword "as".toList).read ([] ++ word ++ gap ++ none ++ last) =
              some (true, rest) := by
            rwa [List.nil_append, List.append_assoc, ← hlast, List.append_assoc, ← hgap, ← htext]
          refine .fail (.generated column List.suffix_rfl has' ?_ ?_)
          · rw [hsame]
            exact (read_eatKeyword_missing hidentity).1
          · have hnot := (read_peekIs hread).2
            simpa using hnot

theorem ends_skips {leads : List String} {x : Reading Unit} (hx : x.Ends blame) (row : ColumnRow) :
    ((Clause.skips leads x).read row).Ends blame := .bind hx fun _ => .pure _

theorem ends_clause {clause : Clause} (h : clause ∈ Clause.all) (row : ColumnRow) :
    (clause.read row).Ends blame := by
  simp only [Clause.all, List.mem_cons, List.not_mem_nil, or_false] at h
  rcases h with rfl | rfl | rfl | rfl | rfl | rfl | rfl | rfl | rfl | rfl | rfl | rfl | rfl | rfl |
    rfl | rfl | rfl | rfl | rfl
  · exact .bind (ends_eatKeyword _) fun _ =>
      .ite (.pure _) (.bind (ends_expectKeyword _) fun _ => .pure _)
  · exact .pure _
  · exact .bind ends_value fun _ => .pure _
  · exact .bind (ends_expectKeyword _) fun _ => .pure _
  · exact .bind (ends_eatKeywords _) fun _ => .pure _
  · exact .bind (ends_readReferences _) fun _ => .pure _
  · exact ends_skips (.bind (ends_eatKeyword _) fun _ =>
      .ite (.bind (ends_eatKeywords _) fun _ => ends_skipName) ends_skipName) row
  · exact ends_skips (.bind (ends_expectKeyword _) fun _ => ends_skipName) row
  · exact ends_skips (.bind (ends_eat _) fun _ => ends_skipName) row
  · exact ends_skips ends_skipValue row
  · exact ends_skips (.bind (ends_expectKeyword _) fun _ => ends_skipValue) row
  · exact .bind (ends_readGenerated _) fun _ => .pure _
  · exact ends_skips ends_skipName row
  · exact ends_skips ends_checkList row
  · exact ends_skips ends_skipValue row
  · exact ends_skips (ends_eatKeywords _) row
  · exact ends_skips (.pure _) row
  · exact ends_skips ends_skipName row
  · exact ends_skips (.pure _) row

theorem ends_readFirst (row : ColumnRow) {clauses : List Clause}
    (h : ∀ clause ∈ clauses, (clause.read row).Ends blame) :
    (Clause.readFirst row clauses).Ends blame := by
  induction clauses with
  | nil =>
    refine ends_found ("unsupported definition of column '".toList ++ row.shape.name ++
      ['\'', ':', ' ']) fun found => ?_
    simp
  | cons clause clauses ih =>
    exact .bind (ends_eatOneOf _) fun _ => .ite (h clause List.mem_cons_self)
      (ih fun other hother => h other (List.mem_cons_of_mem _ hother))

theorem mem_leads {clause : Clause} (h : clause ∈ Clause.all) :
    [] ∉ clause.leads.map String.toList := by
  have hall : ∀ leads ∈ Clause.all.map Clause.leads, [] ∉ leads.map String.toList := by
    simp only [Clause.all, Clause.skips, List.map_cons, List.map_nil]
    decide
  exact hall _ (List.mem_map.mpr ⟨clause, h, rfl⟩)

theorem shortens_readFirst (row : ColumnRow) {clauses : List Clause}
    (h : ∀ clause ∈ clauses, [] ∉ clause.leads.map String.toList) :
    (Clause.readFirst row clauses).Shortens fun _ => True := by
  induction clauses with
  | nil =>
    intro text a rest hread _
    rw [Clause.readFirst, read_bind] at hread
    obtain ⟨r, -, hread⟩ := Option.bind_eq_some_iff.mp hread
    cases hread
  | cons clause clauses ih =>
    refine .bind (shortens_eatOneOf (h clause List.mem_cons_self)) fun there hthere => ?_
    rw [if_neg hthere]
    exact ih fun other hother => h other (List.mem_cons_of_mem _ hother)

theorem ends_readColumnDef : readColumnDef.Ends blame := by
  refine .bind ends_identifier fun _ => .bind (ends_readType _) fun _ => ?_
  refine .loop (fun state => ?_) (fun state => ?_) _
  · refine .bind ends_atItemEnd fun _ => .ite (.pure _) (.bind ?_ fun _ => .pure _)
    exact ends_readFirst _ fun clause h => ends_clause h _
  · refine .after fun _ => .ite (fun _ => .done _) fun _ => .first ?_
    exact shortens_readFirst _ fun clause h => mem_leads h

theorem ends_readIndex (fallback : Text) (unique : Bool) : (readIndex fallback unique).Ends blame := by
  refine .bind (ends_peekIs '(') fun _ => .ite (.bind (.pure _) fun _ => ?_)
    (.bind ends_identifier fun _ => ?_) <;>
  exact .bind ends_indexColumns fun _ => .bind ends_skipItem fun _ => .pure _

theorem ends_readConstraint (table : Text) : (readConstraint table).Ends blame := by
  refine .bind (ends_eatKeyword _) fun _ => .ite ?_ ?_
  · exact .bind (ends_expectKeyword _) fun _ => .bind ends_nameList fun _ =>
      .bind ends_skipItem fun _ => .pure _
  refine .bind (ends_eatKeyword _) fun _ => .ite ?_ ?_
  · exact .bind (ends_eatKeywords _) fun _ => ends_readIndex _ _
  refine .bind (ends_eatOneOf _) fun _ => .ite (ends_readIndex _ _) ?_
  refine .bind (ends_eatKeyword _) fun _ => .ite ?_ ?_
  · exact .bind (ends_expectKeyword _) fun _ => ends_readKeyColumnsThenReferences
  refine .bind (ends_eatKeyword _) fun _ => .ite ?_ ?_
  · exact .bind ends_checkList fun _ => .bind ends_skipItem fun _ => .pure _
  refine .bind (ends_eatOneOf _) fun _ => .ite (.bind ends_skipItem fun _ => .pure _) ?_
  refine ends_found ("unsupported table constraint on '".toList ++ table ++ ['\'', ':', ' '])
    fun found => ?_
  simp

theorem ends_readNamedConstraint (table : Text) : (readNamedConstraint table).Ends blame :=
  .bind ends_constraintLead fun _ =>
    .ite (.bind ends_skipName fun _ => ends_readConstraint table) (ends_readConstraint table)

theorem ends_readTableItem (table : Text) : (readTableItem table).Ends blame :=
  .bind (ends_eatKeyword _) fun _ => .ite (ends_readNamedConstraint table)
    (.bind ends_constraintLead fun _ => .ite (ends_readConstraint table) ends_readColumnDef)

theorem ends_readTableItems (table : Text) : (readTableItems table).Ends blame := by
  refine fun text => EndsBehind.endsOn (.bind (ends_eatKeyword _ text) fun like word rest hlike htext => ?_)
  refine .ite (fun hthere => ?_) fun _ => EndsOn.endsBehind (Ends.bind (ends_expect '(') (fun _ =>
    .bind (.loop (fun edits => ?_) (fun edits => ?_) _) fun _ => .bind ends_statementEnd fun _ =>
      .pure _) rest)
  · subst hthere
    refine .fail (.like List.suffix_rfl ?_)
    rwa [List.nil_append, ← htext]
  · exact .bind (ends_eat ')') fun _ => .ite (.pure _) (.bind (ends_readTableItem table) fun _ =>
      .bind (ends_eat ',') fun _ => .ite (.pure _) (.bind (ends_expect ')') fun _ => .pure _))
  · refine .after fun _ => .ite (fun _ => .done _) fun _ => .after fun _ => ?_
    refine .bind (shortens_eat ',') fun more hmore => ?_
    rw [if_neg hmore]
    exact .after fun _ => .done _

theorem ends_readAddedColumns : readAddedColumns.Ends blame := by
  refine .bind (ends_eat '(') fun _ => .bind ends_readColumnDef fun _ => .ite ?_ (.pure _)
  refine .bind (.loop (fun edits => ?_) (fun edits => ?_) _) fun _ =>
    .bind (ends_expect ')') fun _ => .pure _
  · exact .bind (ends_eat ',') fun _ => .ite (.bind ends_readColumnDef fun _ => .pure _) (.pure _)
  · refine .bind (shortens_eat ',') fun more hmore => ?_
    rw [if_neg hmore]
    exact .done _

theorem ends_readCreateTable : readCreateTable.Ends blame :=
  .bind (ends_eatKeywords _) fun _ => .bind ends_tableName fun _ =>
    .bind (ends_readTableItems _) fun _ => .pure _

theorem ends_readCreateIndex (unique : Bool) : (readCreateIndex unique).Ends blame := by
  refine .bind (ends_eatKeywords _) fun _ text => ?_
  refine EndsBehind.endsOn (.bind (ends_identifier text) fun name named behind hname htext => ?_)
  refine .bind (ends_eatKeyword _ behind) fun on gap rest hon hgap => .ite (fun hmissing => ?_) fun _ => ?_
  · rw [Bool.not_eq_true'] at hmissing
    subst hmissing
    obtain ⟨hskip, hnot⟩ := read_eatKeyword_missing hon
    refine .fail (.on List.suffix_rfl ?_ hskip hnot)
    rwa [List.nil_append, List.append_assoc, ← hgap, ← htext]
  · refine EndsOn.endsBehind (Ends.bind ends_tableName (fun _ => .bind (ends_eatKeyword _) fun _ =>
      .ite (.bind ends_skipName fun _ => ?_) ?_) rest) <;>
    exact .bind ends_indexColumns fun _ => .bind ends_statementEnd fun _ => .pure _

theorem ends_readCreate : readCreate.Ends blame := by
  refine .bind (ends_eatKeywords _) fun _ => .bind (ends_eatKeyword _) fun _ =>
    .ite ends_readCreateTable ?_
  refine .bind (ends_eatKeyword _) fun _ => .bind (ends_eatKeyword _) fun _ =>
    .ite (ends_readCreateIndex _) ?_
  refine .bind (ends_eatOneOf _) fun _ => .ite ?_ ?_
  · exact .bind (ends_eatKeywords _) fun _ => .bind ends_qualified fun _ =>
      .bind ends_statementEnd fun _ => .pure _
  · exact .bind ends_here fun _ => .bind ends_statementEnd fun _ => .pure _

theorem ends_readAddition (table : Text) : (readAddition table).Ends blame := by
  refine .bind (ends_eatKeyword _) fun _ => .ite ends_readAddedColumns ?_
  have hprobes : (anyOf [constraintLead, peekKeyword "constraint".toList]).Ends blame := by
    refine ends_anyOf fun probe hprobe => ?_
    simp only [List.mem_cons, List.not_mem_nil, or_false] at hprobe
    rcases hprobe with rfl | rfl
    · exact ends_constraintLead
    · exact ends_peekKeyword _
  refine .bind hprobes fun _ => .ite (.bind (ends_eatKeyword _) fun _ => ?_) ends_readAddedColumns
  refine .ite (.bind ends_constraintLead fun _ => ?_) (.bind (.pure _) fun _ => ?_) <;>
  exact .ite (.bind ends_skipName fun _ => ends_readConstraint table) (ends_readConstraint table)

theorem ends_readAdditions (table : Text) : (readAdditions table).Ends blame := by
  refine .loop (fun edits => ?_) (fun edits => ?_) _
  · exact .bind (ends_eatKeyword _) fun _ => .ite (.bind (ends_readAddition table) fun _ =>
      .bind (ends_eat ',') fun _ => .pure _) (.pure _)
  · refine .bind (shortens_eatKeyword (by decide)) fun add hadd => ?_
    rw [if_neg hadd]
    exact .done _

theorem ends_readOtherActions (parts : List Text) : (readOtherActions parts).Ends blame := by
  refine .loop (fun edits => ?_) (fun edits => ?_) _
  · exact .bind ends_atItemEnd fun _ => .ite (.pure _) (.bind ends_here fun _ =>
      .bind ends_skipItem fun _ => .bind (ends_eat ',') fun _ => .pure _)
  · refine .after fun _ => .ite (fun _ => .done _) fun _ => .after fun _ => .after fun _ => ?_
    refine .bind (shortens_eat ',') fun more hmore => ?_
    cases more with
    | true => exact absurd rfl hmore
    | false => exact .done _

theorem ends_readAlter (tables : List Text → Option Text) : (readAlter tables).Ends blame := by
  refine .bind (ends_eatKeyword _) fun _ => .ite ?_ ?_
  · exact .bind ends_here fun _ => .bind ends_statementEnd fun _ => .pure _
  refine .bind (ends_eatKeywords _) fun _ => .bind ends_tableName fun parts => ?_
  cases tables parts with
  | none => exact .bind ends_statementEnd fun _ => .pure _
  | some table =>
    exact .bind (ends_readAdditions table) fun _ => .bind (ends_readOtherActions parts) fun _ =>
      .bind ends_statementEnd fun _ => .pure _

theorem ends_readStatement (tables : List Text → Option Text) :
    (readStatement tables).Ends blame := by
  refine .bind (ends_eat ';') fun _ => .ite (.pure _) ?_
  refine .bind (ends_eatKeyword _) fun _ => .ite ends_readCreate ?_
  refine .bind (ends_eatKeyword _) fun _ => .ite (ends_readAlter tables) ?_
  refine .bind (ends_eatKeyword _) fun _ => .ite ?_ ?_
  · exact .bind (ends_eatKeyword _) fun _ => .bind ends_identifier fun _ =>
      .bind ends_statementEnd fun _ => .pure _
  · exact .bind ends_here fun _ => .bind ends_statementEnd fun _ => .pure _

theorem ends_parseScript (progress : Progress) : (parseScript progress).Ends blame := by
  refine .loop (fun progress => ?_) scriptStep_consumes progress
  exact .bind ends_exhausted fun _ => .ite (.pure _)
    (.bind (ends_readStatement _) fun _ => .pure _)

/-- The parser comes to a snapshot or to an error, and the error names the line of the place it is
blamed on. -/
theorem parseDdl_ends (script : Text) : (∃ result, parseDdl script = .ok result) ∨
    ∃ line reason taken rest, parseDdl script = .error (.at line reason) ∧ script = taken ++ rest ∧
      line = 1 + taken.count '\n' ∧ Blames taken rest reason := by
  rw [parseDdl]
  cases hrun : (parseScript {}).run ⟨script, 1⟩ with
  | ok r => exact .inl ⟨_, rfl⟩
  | error e =>
    have hends := ends_parseScript {} script 1 e hrun
    cases e with
    | stuck => exact hends.elim
    | «at» line reason =>
      obtain ⟨taken, rest, htext, hline, hblame⟩ := hends
      exact .inr ⟨line, reason, taken, rest, rfl, htext, hline, hblame⟩

end Uniorm.Ddl
