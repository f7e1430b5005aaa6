import Uniorm.Ddl.Agreement

/-! # The parser and its place

The readers call the scanner and go where it goes; they never touch the place
themselves. So the parser is a program over the functions of the scanner by
position, and what these keep is kept by every run of it.
-/
namespace Uniorm.Ddl

open Foundation Foundation.Walk Sql Builder Schema

variable [Dangling]

inductive Call : ∀ α : Type, ByIndex.Moving α → Reading α → Prop where
  | exhausted : Call Bool ByIndex.exhausted exhausted
  | here : Call Text ByIndex.here here
  | peekIs (ch : Char) : Call Bool (ByIndex.peekIs ch) (peekIs ch)
  | eat (ch : Char) : Call Bool (ByIndex.eat ch) (eat ch)
  | expect (ch : Char) : Call Unit (ByIndex.expect ch) (expect ch)
  | peekKeyword (word : Text) : Call Bool (ByIndex.peekKeyword word) (peekKeyword word)
  | eatKeyword (word : Text) : Call Bool (ByIndex.eatKeyword word) (eatKeyword word)
  | expectKeyword (word : Text) : Call Unit (ByIndex.expectKeyword word) (expectKeyword word)
  | peekWord : Call Text ByIndex.peekWord peekWord
  | takeWord : Call Unit ByIndex.takeWord takeWord
  | eatOptionalName : Call Bool ByIndex.eatOptionalName eatOptionalName
  | identifier : Call Text ByIndex.identifier identifier
  | qualified : Call (List Text) ByIndex.qualified qualified
  | value : Call Text ByIndex.value value
  | nameList : Call (List Text) ByIndex.nameList nameList
  | indexColumns : Call (List Text) ByIndex.indexColumns indexColumns
  | atItemEnd : Call Bool ByIndex.atItemEnd atItemEnd
  | skipItem : Call Unit ByIndex.skipItem skipItem
  | skipBalanced : Call Unit ByIndex.skipBalanced skipBalanced
  | statementEnd : Call Unit ByIndex.statementEnd statementEnd

theorem Call.implements {α : Type} {x : ByIndex.Moving α} {y : Reading α} (h : Call α x y) :
    x.Implements y := by
  cases h with
  | exhausted => exact ByIndex.implements_exhausted
  | here => exact ByIndex.implements_here
  | peekIs ch => exact ByIndex.implements_peekIs ch
  | eat ch => exact ByIndex.implements_eat ch
  | expect ch => exact ByIndex.implements_expect ch
  | peekKeyword word => exact ByIndex.implements_peekKeyword word
  | eatKeyword word => exact ByIndex.implements_eatKeyword word
  | expectKeyword word => exact ByIndex.implements_expectKeyword word
  | peekWord => exact ByIndex.implements_peekWord
  | takeWord => exact ByIndex.implements_takeWord
  | eatOptionalName => exact ByIndex.implements_eatOptionalName
  | identifier => exact ByIndex.implements_identifier
  | qualified => exact ByIndex.implements_qualified
  | value => exact ByIndex.implements_value
  | nameList => exact ByIndex.implements_nameList
  | indexColumns => exact ByIndex.implements_indexColumns
  | atItemEnd => exact ByIndex.implements_atItemEnd
  | skipItem => exact ByIndex.implements_skipItem
  | skipBalanced => exact ByIndex.implements_skipBalanced
  | statementEnd => exact ByIndex.implements_statementEnd

abbrev Calls {α : Type} (y : Reading α) : Prop := Walkable Call y

theorem Call.calls {α : Type} {x : ByIndex.Moving α} {y : Reading α} (h : Call α x y) : Calls y :=
  ⟨x, .call h⟩

theorem calls_eatKeywords (words : List Text) : Calls (eatKeywords words) := by
  induction words with
  | nil => exact .pure _
  | cons word words ih => exact .bind (Call.eatKeyword word).calls fun _ => ih

theorem calls_eatOneOf (words : List Text) : Calls (eatOneOf words) := by
  induction words with
  | nil => exact .pure _
  | cons word words ih => exact .bind (Call.eatKeyword word).calls fun _ => .ite (.pure _) ih

theorem calls_tableName : Calls tableName :=
  .bind Call.qualified.calls fun _ => .ite (.fail _) (.pure _)

theorem calls_opensListWithin (terms : ℕ) : Calls (opensListWithin terms) := by
  induction terms with
  | zero => exact .pure _
  | succ terms ih =>
    exact .bind (Call.peekIs '(').calls fun _ => .ite (.pure _) <|
      .bind Call.eatOptionalName.calls fun _ => .ite ih (.pure _)

theorem calls_opensAKeyList (lead : Text) : Calls (opensAKeyList lead) :=
  .ahead <| .bind (Call.eatKeyword lead).calls fun _ => .ite (calls_opensListWithin 3) (.pure _)

theorem calls_anyOf {probes : List (Reading Bool)} (h : ∀ probe ∈ probes, Calls probe) :
    Calls (anyOf probes) := by
  induction probes with
  | nil => exact .pure _
  | cons probe probes ih =>
    exact .bind (h probe List.mem_cons_self) fun _ =>
      .ite (.pure _) (ih fun probe hprobe => h probe (List.mem_cons_of_mem _ hprobe))

theorem calls_constraintLead : Calls constraintLead := by
  refine calls_anyOf fun probe hprobe => ?_
  rcases List.mem_append.mp hprobe with hprobe | hprobe
  · obtain ⟨word, -, rfl⟩ := List.mem_map.mp hprobe
    exact (Call.peekKeyword word).calls
  · simp only [List.mem_cons, List.not_mem_nil, or_false] at hprobe
    rcases hprobe with rfl | rfl | rfl <;> exact calls_opensAKeyList _

theorem calls_readReferences (locals : List Text) : Calls (readReferences locals) := by
  refine .bind (Call.eatKeyword _).calls fun _ => .bind calls_tableName fun target => ?_
  refine .bind (Call.peekIs '(').calls fun _ =>
    .ite (.bind Call.nameList.calls fun _ => ?_) (.bind (.pure _) fun _ => ?_) <;>
  exact .ite (.bind Call.skipItem.calls fun _ => .pure _)
    (.ite (.fail _) (.bind Call.skipItem.calls fun _ => .pure _))

theorem calls_readKeyColumnsThenReferences : Calls readKeyColumnsThenReferences :=
  .bind (Call.peekIs '(').calls fun _ =>
    .ite (.bind Call.nameList.calls fun _ => calls_readReferences _) (calls_readReferences _)

theorem calls_readArguments (row : ColumnRow) : Calls (readArguments row) :=
  .loop (fun _ => .bind (Call.eat ')').calls fun _ => .ite (.pure _) <|
    .bind Call.value.calls fun _ => .bind (Call.eat ',').calls fun _ =>
      .ite (.pure _) (.bind (Call.expect ')').calls fun _ => .pure _)) _

theorem calls_readPhrase (phrase : Text) : Calls (readPhrase phrase) :=
  .loop (fun _ => .bind Call.peekWord.calls fun _ =>
    .ite (.pure _) (.bind Call.takeWord.calls fun _ => .pure _)) _

theorem calls_skipSigns : Calls skipSigns :=
  .loop (fun _ => .bind (calls_eatOneOf _) fun _ => .pure _) ()

theorem calls_typeEnd (row : ColumnRow) (phrase : Text) : Calls (typeEnd row phrase) :=
  .bind calls_skipSigns fun _ => .bind (Call.peekIs '[').calls fun _ => .ite (.fail _) (.pure _)

theorem calls_readType (row : ColumnRow) : Calls (readType row) := by
  refine .bind Call.qualified.calls fun _ => .bind (Call.eat '(').calls fun _ => ?_
  refine .ite (.bind (calls_readArguments row) fun row => ?_) (.bind (.pure _) fun row => ?_) <;>
  · refine .bind (calls_readPhrase _) fun phrase => ?_
    refine .ite (.bind (.pure _) fun _ => ?_) (.bind (Call.eat '(').calls fun _ => ?_) <;>
    refine .ite (.bind (calls_readArguments _) fun row => ?_) (.bind (.pure _) fun row => ?_) <;>
    exact calls_typeEnd row phrase

theorem calls_checkList : Calls Clause.checkList :=
  .bind (Call.peekIs '(').calls fun _ => .ite Call.skipBalanced.calls (.pure _)

theorem calls_skipName : Calls Clause.skipName := .bind Call.identifier.calls fun _ => .pure _

theorem calls_skipValue : Calls Clause.skipValue := .bind Call.value.calls fun _ => .pure _

theorem calls_readGenerated (column : Text) : Calls (readGenerated column) := by
  refine .bind (Call.eatKeyword _).calls fun _ => .ite (.bind (calls_eatKeywords _) fun _ => ?_) ?_ <;>
  · refine .bind (Call.eatKeyword _).calls fun as => ?_
    refine .ite (.bind (Call.eatKeyword _).calls fun identity => ?_)
      (.bind (.pure _) fun identity => ?_) <;>
    · refine .ite (.bind (.pure _) fun expression => ?_)
        (.bind (Call.peekIs '(').calls fun expression => ?_) <;>
      refine .ite (.bind Call.skipBalanced.calls fun _ => ?_) ?_ <;>
      exact .ite (.fail _) (.bind (calls_eatKeywords _) fun _ => .pure _)

theorem calls_skips {leads : List String} {x : Reading Unit} (hx : Calls x) (row : ColumnRow) :
    Calls ((Clause.skips leads x).read row) := .bind hx fun _ => .pure _

theorem calls_clause {clause : Clause} (h : clause ∈ Clause.all) (row : ColumnRow) :
    Calls (clause.read row) := by
  simp only [Clause.all, List.mem_cons, List.not_mem_nil, or_false] at h
  rcases h with rfl | rfl | rfl | rfl | rfl | rfl | rfl | rfl | rfl | rfl | rfl | rfl | rfl | rfl |
    rfl | rfl | rfl | rfl | rfl
  · exact .bind (Call.eatKeyword _).calls fun _ =>
      .ite (.pure _) (.bind (Call.expectKeyword _).calls fun _ => .pure _)
  · exact .pure _
  · exact .bind Call.value.calls fun _ => .pure _
  · exact .bind (Call.expectKeyword _).calls fun _ => .pure _
  · exact .bind (calls_eatKeywords _) fun _ => .pure _
  · exact .bind (calls_readReferences _) fun _ => .pure _
  · exact calls_skips (.bind (Call.eatKeyword _).calls fun _ =>
      .ite (.bind (calls_eatKeywords _) fun _ => calls_skipName) calls_skipName) row
  · exact calls_skips (.bind (Call.expectKeyword _).calls fun _ => calls_skipName) row
  · exact calls_skips (.bind (Call.eat _).calls fun _ => calls_skipName) row
  · exact calls_skips calls_skipValue row
  · exact calls_skips (.bind (Call.expectKeyword _).calls fun _ => calls_skipValue) row
  · exact .bind (calls_readGenerated _) fun _ => .pure _
  · exact calls_skips calls_skipName row
  · exact calls_skips calls_checkList row
  · exact calls_skips calls_skipValue row
  · exact calls_skips (calls_eatKeywords _) row
  · exact calls_skips (.pure _) row
  · exact calls_skips calls_skipName row
  · exact calls_skips (.pure _) row

theorem calls_readFirst (row : ColumnRow) {clauses : List Clause}
    (h : ∀ clause ∈ clauses, Calls (clause.read row)) : Calls (Clause.readFirst row clauses) := by
  induction clauses with
  | nil => exact .bind Call.here.calls fun _ => .fail _
  | cons clause clauses ih =>
    exact .bind (calls_eatOneOf _) fun _ => .ite (h clause List.mem_cons_self)
      (ih fun other hother => h other (List.mem_cons_of_mem _ hother))

theorem calls_readColumnDef : Calls readColumnDef := by
  refine .bind Call.identifier.calls fun _ => .bind (calls_readType _) fun _ => .loop (fun _ => ?_) _
  exact .bind Call.atItemEnd.calls fun _ => .ite (.pure _)
    (.bind (calls_readFirst _ fun clause h => calls_clause h _) fun _ => .pure _)

theorem calls_readIndex (fallback : Text) (unique : Bool) : Calls (readIndex fallback unique) := by
  refine .bind (Call.peekIs '(').calls fun _ => .ite (.bind (.pure _) fun _ => ?_)
    (.bind Call.identifier.calls fun _ => ?_) <;>
  exact .bind Call.indexColumns.calls fun _ => .bind Call.skipItem.calls fun _ => .pure _

theorem calls_readConstraint (table : Text) : Calls (readConstraint table) := by
  refine .bind (Call.eatKeyword _).calls fun _ => .ite ?_ ?_
  · exact .bind (Call.expectKeyword _).calls fun _ => .bind Call.nameList.calls fun _ =>
      .bind Call.skipItem.calls fun _ => .pure _
  refine .bind (Call.eatKeyword _).calls fun _ => .ite ?_ ?_
  · exact .bind (calls_eatKeywords _) fun _ => calls_readIndex _ _
  refine .bind (calls_eatOneOf _) fun _ => .ite (calls_readIndex _ _) ?_
  refine .bind (Call.eatKeyword _).calls fun _ => .ite ?_ ?_
  · exact .bind (Call.expectKeyword _).calls fun _ => calls_readKeyColumnsThenReferences
  refine .bind (Call.eatKeyword _).calls fun _ => .ite ?_ ?_
  · exact .bind calls_checkList fun _ => .bind Call.skipItem.calls fun _ => .pure _
  refine .bind (calls_eatOneOf _) fun _ => .ite (.bind Call.skipItem.calls fun _ => .pure _) ?_
  exact .bind Call.here.calls fun _ => .fail _

theorem calls_readNamedConstraint (table : Text) : Calls (readNamedConstraint table) :=
  .bind calls_constraintLead fun _ =>
    .ite (.bind calls_skipName fun _ => calls_readConstraint table) (calls_readConstraint table)

theorem calls_readTableItem (table : Text) : Calls (readTableItem table) :=
  .bind (Call.eatKeyword _).calls fun _ => .ite (calls_readNamedConstraint table)
    (.bind calls_constraintLead fun _ => .ite (calls_readConstraint table) calls_readColumnDef)

theorem calls_readTableItems (table : Text) : Calls (readTableItems table) := by
  refine .bind (Call.eatKeyword _).calls fun _ => .ite (.fail _) ?_
  refine .bind (Call.expect '(').calls fun _ => .bind (.loop (fun _ => ?_) _) fun _ =>
    .bind Call.statementEnd.calls fun _ => .pure _
  exact .bind (Call.eat ')').calls fun _ => .ite (.pure _) (.bind (calls_readTableItem table) fun _ =>
    .bind (Call.eat ',').calls fun _ => .ite (.pure _) (.bind (Call.expect ')').calls fun _ => .pure _))

theorem calls_readAddedColumns : Calls readAddedColumns := by
  refine .bind (Call.eat '(').calls fun _ => .bind calls_readColumnDef fun _ => .ite ?_ (.pure _)
  refine .bind (.loop (fun _ => ?_) _) fun _ => .bind (Call.expect ')').calls fun _ => .pure _
  exact .bind (Call.eat ',').calls fun _ =>
    .ite (.bind calls_readColumnDef fun _ => .pure _) (.pure _)

theorem calls_readCreateTable : Calls readCreateTable :=
  .bind (calls_eatKeywords _) fun _ => .bind calls_tableName fun _ =>
    .bind (calls_readTableItems _) fun _ => .pure _

theorem calls_readCreateIndex (unique : Bool) : Calls (readCreateIndex unique) := by
  refine .bind (calls_eatKeywords _) fun _ => .bind Call.identifier.calls fun _ => ?_
  refine .bind (Call.eatKeyword _).calls fun _ => .ite (.fail _) ?_
  refine .bind calls_tableName fun _ => .bind (Call.eatKeyword _).calls fun _ =>
    .ite (.bind calls_skipName fun _ => ?_) ?_ <;>
  exact .bind Call.indexColumns.calls fun _ => .bind Call.statementEnd.calls fun _ => .pure _

theorem calls_readCreate : Calls readCreate := by
  refine .bind (calls_eatKeywords _) fun _ => .bind (Call.eatKeyword _).calls fun _ =>
    .ite calls_readCreateTable ?_
  refine .bind (Call.eatKeyword _).calls fun _ => .bind (Call.eatKeyword _).calls fun _ =>
    .ite (calls_readCreateIndex _) ?_
  refine .bind (calls_eatOneOf _) fun _ => .ite ?_ ?_
  · exact .bind (calls_eatKeywords _) fun _ => .bind Call.qualified.calls fun _ =>
      .bind Call.statementEnd.calls fun _ => .pure _
  · exact .bind Call.here.calls fun _ => .bind Call.statementEnd.calls fun _ => .pure _

theorem calls_readAddition (table : Text) : Calls (readAddition table) := by
  refine .bind (Call.eatKeyword _).calls fun _ => .ite calls_readAddedColumns ?_
  have hprobes : Calls (anyOf [constraintLead, peekKeyword "constraint".toList]) := by
    refine calls_anyOf fun probe hprobe => ?_
    simp only [List.mem_cons, List.not_mem_nil, or_false] at hprobe
    rcases hprobe with rfl | rfl
    · exact calls_constraintLead
    · exact (Call.peekKeyword _).calls
  refine .bind hprobes fun _ => .ite (.bind (Call.eatKeyword _).calls fun _ => ?_)
    calls_readAddedColumns
  refine .ite (.bind calls_constraintLead fun _ => ?_) (.bind (.pure _) fun _ => ?_) <;>
  exact .ite (.bind calls_skipName fun _ => calls_readConstraint table) (calls_readConstraint table)

theorem calls_readAdditions (table : Text) : Calls (readAdditions table) :=
  .loop (fun _ => .bind (Call.eatKeyword _).calls fun _ => .ite (.bind (calls_readAddition table)
    fun _ => .bind (Call.eat ',').calls fun _ => .pure _) (.pure _)) _

theorem calls_readOtherActions (parts : List Text) : Calls (readOtherActions parts) :=
  .loop (fun _ => .bind Call.atItemEnd.calls fun _ => .ite (.pure _) (.bind Call.here.calls fun _ =>
    .bind Call.skipItem.calls fun _ => .bind (Call.eat ',').calls fun _ => .pure _)) _

theorem calls_readAlter (tables : List Text → Option Text) : Calls (readAlter tables) := by
  refine .bind (Call.eatKeyword _).calls fun _ => .ite ?_ ?_
  · exact .bind Call.here.calls fun _ => .bind Call.statementEnd.calls fun _ => .pure _
  refine .bind (calls_eatKeywords _) fun _ => .bind calls_tableName fun parts => ?_
  cases tables parts with
  | none => exact .bind Call.statementEnd.calls fun _ => .pure _
  | some table =>
    exact .bind (calls_readAdditions table) fun _ => .bind (calls_readOtherActions parts) fun _ =>
      .bind Call.statementEnd.calls fun _ => .pure _

theorem calls_readStatement (tables : List Text → Option Text) : Calls (readStatement tables) := by
  refine .bind (Call.eat ';').calls fun _ => .ite (.pure _) ?_
  refine .bind (Call.eatKeyword _).calls fun _ => .ite calls_readCreate ?_
  refine .bind (Call.eatKeyword _).calls fun _ => .ite (calls_readAlter tables) ?_
  refine .bind (Call.eatKeyword _).calls fun _ => .ite ?_ ?_
  · exact .bind (Call.eatKeyword _).calls fun _ => .bind Call.identifier.calls fun _ =>
      .bind Call.statementEnd.calls fun _ => .pure _
  · exact .bind Call.here.calls fun _ => .bind Call.statementEnd.calls fun _ => .pure _

theorem calls_parseScript (progress : Progress) : Calls (parseScript progress) :=
  .loop (fun _ => .bind Call.exhausted.calls fun _ => .ite (.pure _)
    (.bind (calls_readStatement _) fun _ => .pure _)) progress

/-- A run over a script: each place it passes is in the script and has the number of its line, and
no character is asked for that the script does not have. -/
structure KeepsPlace {α : Type} (program : ByIndex.Moving α) (script : Text) : Prop where
  sound : ∀ s ∈ (program.run script {}).passed, s.Sound script
  inside : ∀ index, (program.run script {}).result ≠ .error (.outside index)

omit [Dangling] in
theorem keepsPlace_of_implements {α : Type} {program : ByIndex.Moving α} {y : Reading α}
    (h : program.Implements y) (script : Text) : KeepsPlace program script := by
  obtain ⟨hpassed, hresult⟩ := h [] script
  refine ⟨hpassed, fun index hout => ?_⟩
  rw [List.nil_append, show Spot.behind [] = {} from rfl, hout] at hresult
  generalize y.run _ = run at hresult
  cases hresult

/-- The parser comes to a snapshot or to an error on the line of the place that it is blamed on;
and as a program over the functions of the scanner by position it comes to the same, reads no
character outside of the script and has at every place the number of its line. -/
theorem parser_keeps_its_place :
    (∀ script, (∃ result, parseDdl script = .ok result) ∨
      ∃ line reason taken rest, parseDdl script = .error (.at line reason) ∧ script = taken ++ rest ∧
        line = 1 + taken.count '\n' ∧ Blames taken rest reason) ∧
    ∃ program, Composed Call program (parseScript {}) ∧ ∀ script, KeepsPlace program script ∧
      Tells [] script ((parseScript {}).run ⟨script, 1⟩) (program.run script {}).result := by
  refine ⟨parseDdl_ends, ?_⟩
  obtain ⟨program, hprogram⟩ := calls_parseScript {}
  have himplements : program.Implements (parseScript {}) := hprogram.implements Call.implements
  exact ⟨program, hprogram, fun script =>
    ⟨keepsPlace_of_implements himplements script, (himplements [] script).result⟩⟩

end Uniorm.Ddl
