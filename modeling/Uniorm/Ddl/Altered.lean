import Uniorm.Ddl.Additions

/-! # Every addition of ALTER TABLE

What a script says behind ALTER TABLE is what it says behind the adding actions
alone, exactly when the actions that are skipped can be skipped and the adding
ones among them say nothing new.
-/
namespace Uniorm.Ddl

open Foundation Foundation.Scan Sql Builder Schema

def Edit.keys : Edit → List Text
  | .key name => [name]
  | _ => []

theorem mem_primaryKey_iff {items : List Edit} {table : DdlTable} {name : Text} :
    name ∈ (onTable items table).primaryKey ↔ name ∈ table.primaryKey ++ items.flatMap Edit.keys := by
  have hkey : ∀ e : Edit, name ∈ e.keys ↔ e = .key name := by
    intro e
    cases e <;> simp [Edit.keys, eq_comm]
  have hkeys : name ∈ items.flatMap Edit.keys ↔ .key name ∈ items := by
    simp [List.mem_flatMap, hkey]
  rw [List.mem_append, hkeys]
  refine ⟨fun h => ?_, mem_primaryKey items table⟩
  clear hkeys
  induction items generalizing table with
  | nil => exact .inl h
  | cons e items ih =>
    rcases ih h with hmem | hmem
    · cases e with
      | key other =>
        change name ∈ (markKey table other).primaryKey at hmem
        rw [markKey] at hmem
        split_ifs at hmem
        · exact .inl hmem
        · rcases List.mem_append.mp hmem with hmem | hmem
          · exact .inl hmem
          · obtain rfl := List.mem_singleton.mp hmem
            exact .inr List.mem_cons_self
      | _ => exact .inl hmem
    · exact .inr (List.mem_cons_of_mem _ hmem)

namespace Alteration

/-- No action that is skipped has a `$` that starts no quoted body or one with an end that is not found,
and the adding ones among them say nothing that the table and the actions in front do not say already. -/
def Harmless [Dangling] {table : DdlTable} (alt : Alteration table.ref.name) : Prop :=
  (∀ a ∈ alt.behind, .dollar ∉ a.tokens) ∧
    ∀ e ∈ alt.late, e.Idle (table.primaryKey ++ alt.edits.flatMap Edit.keys)

end Alteration

theorem idle_congr {keys keys' : List Text} (h : ∀ name, name ∈ keys ↔ name ∈ keys') (e : Edit) :
    e.Idle keys ↔ e.Idle keys' := by
  cases e with
  | key name => exact h name
  | _ => exact Iff.rfl

section Statement
variable [Dangling] {content : Content} {slot : ℕ} {table : DdlTable} (alt : Alteration table.ref.name)

/-- A statement goes on with what it says, or fails. -/
theorem schemaFrom_alter (text : Text) : schemaFrom content (alt.header ++ text) =
    ((readStatement content.spelling).read (alt.header ++ text)).bind fun q =>
      schemaFrom (content.apply q.1) q.2 := by
  obtain ⟨c, cs, hheader, hc⟩ : ∃ c cs, alt.header = c :: cs ∧ identStart c = true := by
    have hword := alt.opens.word
    cases hheader : alt.header with
    | nil =>
      rw [hheader] at hword
      cases hword
    | cons c cs =>
      rw [hheader] at hword
      exact ⟨c, cs, rfl, hword⟩
  have hsettled : Settled (alt.header ++ text) := by
    rw [hheader]
    exact settled_of_identStart hc _
  have hne : ¬ alt.header ++ text = [] := by
    rw [hheader]
    exact List.cons_ne_nil _ _
  rw [schemaFrom_eq, hsettled.read_skipBlanks, Option.bind_some, if_neg hne]

variable (hfind : findTable content.out.tables alt.parts = some slot)
include hfind

/-- Reports say nothing of the table. -/
theorem apply_alter (items : List Edit) (reported : List Action) :
    content.apply (.alter alt.parts (items ++ reported.map (fun a => a.note alt.parts) ++ [.applyKeys])) =
      content.carriedOut slot items := by
  have hnotes : ∀ table, onTable (reported.map fun a => a.note alt.parts) table = table := by
    intro table
    induction reported with
    | nil => rfl
    | cons a reported ih => exact ih
  have hwaits : (reported.map fun a => a.note alt.parts).flatMap Edit.waits = [] := by
    refine List.flatMap_eq_nil_iff.mpr fun e he => ?_
    obtain ⟨a, -, rfl⟩ := List.mem_map.mp he
    rfl
  have htables : onTable (items ++ reported.map (fun a => a.note alt.parts) ++ [.applyKeys]) =
      onTable (items ++ [.applyKeys]) := by
    funext table
    rw [onTable_append, onTable_append, hnotes, onTable_append]
  have hlast : ([Edit.applyKeys] : List Edit).flatMap Edit.waits = [] := rfl
  rw [Content.apply, hfind, Content.carriedOut]
  simp only [edits_eq, htables, List.flatMap_append, hwaits, hlast, List.append_nil]

variable (htable : content.out.tables[slot]? = some table)
include htable

theorem spelling_eq : content.spelling alt.parts = some table.ref.name := by
  rw [Content.spelling, hfind, Option.bind_some, htable, Option.map_some]

variable {rest : Text} (hrest : EndsStatement rest)
include hrest

theorem schemaFrom_text (hdollar : ∀ a ∈ alt.behind, .dollar ∉ a.tokens) :
    schemaFrom content (alt.text rest) = schemaFrom (content.carriedOut slot alt.edits) rest.tail := by
  have hspelled : Spelled rest alt.behind := (alt.spelled.dropWhile _).stop hrest hdollar
  rw [Alteration.text, schemaFrom_alter,
    alt.opens.read_alter hrest (spelling_eq alt hfind htable) alt.reads hspelled hdollar,
    Option.bind_some, apply_alter alt hfind]
  rfl

theorem schemaFrom_kept : schemaFrom content (alt.kept rest) =
    schemaFrom (content.carriedOut slot (alt.edits ++ alt.late)) rest.tail := by
  have hsplit : alt.actions.filter Action.adds = alt.front ++ alt.behind.filter Action.adds := by
    have hfront : alt.front.filter Action.adds = alt.front :=
      List.filter_eq_self.mpr fun a ha => List.mem_takeWhile_imp ha
    rw [← hfront, ← List.filter_append, Alteration.front, Alteration.behind,
      List.takeWhile_append_dropWhile]
  have hall : ∀ a ∈ alt.actions.filter Action.adds, a.adds = true := fun a ha =>
    (List.mem_filter.mp ha).2
  have hbehind : (alt.actions.filter Action.adds).dropWhile Action.adds = [] :=
    List.dropWhile_eq_nil_iff.mpr hall
  have hfront : (alt.actions.filter Action.adds).takeWhile Action.adds =
      alt.actions.filter Action.adds := List.takeWhile_eq_self_iff.mpr hall
  have hreads : ∀ a ∈ alt.actions.filter Action.adds, a.adds = true → a.Reads table.ref.name :=
    fun a ha => alt.reads a (List.mem_filter.mp ha).1
  have hspelled : Spelled rest ((alt.actions.filter Action.adds).dropWhile Action.adds) := by
    rw [hbehind]
    trivial
  have hdollar : ∀ a ∈ (alt.actions.filter Action.adds).dropWhile Action.adds, .dollar ∉ a.tokens := by
    rw [hbehind]
    exact fun a ha => absurd ha List.not_mem_nil
  rw [Alteration.kept, schemaFrom_alter,
    alt.opens.read_alter hrest (spelling_eq alt hfind htable) hreads hspelled hdollar,
    Option.bind_some, apply_alter alt hfind, hfront, hsplit, List.flatMap_append]
  rfl

end Statement

/-- ALTER TABLE leaves its table as the adding actions alone leave it exactly where the actions from
the first one on that adds nothing can be skipped and the adding ones among them say nothing new;
and there the whole script says the same. -/
theorem alter_applies_additions_iff [Dangling] {s : Text} {content : Content} (hs : Says s content)
    {slot : ℕ}
    {table : DdlTable} (htable : content.out.tables[slot]? = some table)
    (alt : Alteration table.ref.name) (hfind : findTable content.out.tables alt.parts = some slot) :
    ((∀ rest, EndsStatement rest →
        (schemaOf (s ++ alt.text rest)).map (fun out => out.tables[slot]?) =
          (schemaOf (s ++ alt.kept rest)).map fun out => out.tables[slot]?) ↔ alt.Harmless) ∧
      (alt.Harmless → ∀ rest, EndsStatement rest →
        schemaOf (s ++ alt.text rest) = schemaOf (s ++ alt.kept rest)) := by
  have hsame : alt.Harmless → ∀ rest, EndsStatement rest →
      schemaOf (s ++ alt.text rest) = schemaOf (s ++ alt.kept rest) := by
    rintro ⟨hdollar, hidle⟩ rest hrest
    have hlate : ∀ e ∈ alt.late, e.Idle (onTable alt.edits table).primaryKey := fun e he =>
      (idle_congr (fun _ => mem_primaryKey_iff) e).mpr (hidle e he)
    rw [hs, hs, schemaFrom_text alt hfind htable hrest hdollar, schemaFrom_kept alt hfind htable hrest]
    exact (carriedOut_same htable hlate).schemaFrom rest.tail
  refine ⟨⟨fun halike => ?_, fun h rest hrest => by rw [hsame h rest hrest]⟩, hsame⟩
  have hkept : ∀ rest, EndsStatement rest → schemaOf (s ++ alt.kept rest) =
      schemaFrom (content.carriedOut slot (alt.edits ++ alt.late)) rest.tail := fun rest hrest => by
    rw [hs, schemaFrom_kept alt hfind htable hrest]
  have hdollar : ∀ a ∈ alt.behind, .dollar ∉ a.tokens := by
    intro a ha hmem
    have hend := halike [] (.inl rfl)
    rw [hkept [] (.inl rfl), hs, Alteration.text, schemaFrom_alter,
      alt.opens.read_dollar (.inl rfl) (spelling_eq alt hfind htable) alt.reads
        (alt.spelled.dropWhile _) ⟨a, ha, hmem⟩, List.tail_nil, schemaFrom_nil] at hend
    cases hend
  refine ⟨hdollar, fun e he => ?_⟩
  have hbehind :
      ∀ r, (schemaFrom (content.carriedOut slot alt.edits) r).map (fun out => out.tables[slot]?) =
      (schemaFrom (content.carriedOut slot (alt.edits ++ alt.late)) r).map fun out =>
        out.tables[slot]? := by
    intro r
    have hrest : EndsStatement (';' :: r) := .inr ⟨r, rfl⟩
    have hsays := halike (';' :: r) hrest
    rw [hkept _ hrest, hs, schemaFrom_text alt hfind htable hrest hdollar] at hsays
    exact hsays
  exact (idle_congr (fun _ => mem_primaryKey_iff) e).mp (late_idle htable hbehind e he)

def plainTokens (body : Text) : List Token := (body.filter fun c => !isSpace c).map .char

def opensNothing (c : Char) : Bool := !quoteStart c && c != '#' && c != '-' && c != '/'

theorem skims_plain [Dangling] {next body : Text} (h : body.all opensNothing = true) :
    Skims next body (plainTokens body) := by
  induction body with
  | nil => exact .nil
  | cons c body ih =>
    rw [List.all_cons, Bool.and_eq_true] at h
    have hc := h.1
    simp only [opensNothing, Bool.and_eq_true, Bool.not_eq_true', bne_iff_ne] at hc
    obtain ⟨⟨⟨hquote, hhash⟩, hdash⟩, hslash⟩ := hc
    cases hspace : isSpace c with
    | true =>
      rw [plainTokens, List.filter_cons_of_neg (by simp [hspace])]
      exact .space hspace (ih h.2)
    | false =>
      rw [plainTokens, List.filter_cons_of_pos (by simp [hspace]), List.map_cons]
      exact .char hquote (settled_of_head hspace ⟨hhash, hdash⟩ hslash _) (ih h.2)

/-- ALTER TABLE and a name that is none of the words that may stand in front of it. -/
theorem header_word [Dangling] {w : Text} (hw : Word w)
    (hother : ∀ word ∈ ["if", "only", "exists"].map String.toList, foldLower w ≠ foldLower word) :
    Header ("alter table ".toList ++ (w ++ [' '])) [w] := by
  refine ⟨rfl, fun tables text rest hskip hdot => ?_⟩
  have htable : Word "table".toList := ⟨rfl, rfl⟩
  have hends : EndsWord (' ' :: text) := rfl
  have hbehind : EndsWord (' ' :: (w ++ ' ' :: text)) := rfl
  have halter : EndsWord (' ' :: ("table".toList ++ ' ' :: (w ++ ' ' :: text))) := rfl
  have htext : "alter table ".toList ++ (w ++ [' ']) ++ text =
      "alter".toList ++ ' ' :: ("table".toList ++ ' ' :: (w ++ ' ' :: text)) := by
    have happend : w ++ [' '] ++ text = w ++ ' ' :: text := by simp
    rw [List.append_assoc, happend]
    rfl
  have hsemi : ¬ ("alter".toList ++ ' ' :: ("table".toList ++ ' ' :: (w ++ ' ' :: text))).head? =
      some ';' :=
    show ¬ (some 'a' : Option Char) = some ';' by decide
  have hread : (eatKeyword "table".toList).read (' ' :: ("table".toList ++ ' ' :: (w ++ ' ' :: text))) =
      some (true, ' ' :: (w ++ ' ' :: text)) := by
    rw [(skipsFirst_eatKeyword _).read_space (htable.settled hbehind),
      htable.read_eatKeyword hbehind htable, if_pos rfl]
  have hskipName : skipBlanks.read (' ' :: (w ++ ' ' :: text)) = some ((), w ++ ' ' :: text) := by
    rw [read_skipBlanks_space rfl, (hw.settled hends).read_skipBlanks]
  have hnone : (eatKeywords (["if", "only", "exists"].map String.toList)).read
      (' ' :: (w ++ ' ' :: text)) = some ((), w ++ ' ' :: text) := by
    refine read_eatKeywords_none hskipName (by decide) fun word hword => ?_
    rw [wordOf_append hw hends]
    refine ⟨?_, hother word hword⟩
    simp only [List.map_cons, List.map_nil, List.mem_cons, List.not_mem_nil, or_false] at hword
    rcases hword with rfl | rfl | rfl <;> exact ⟨rfl, rfl⟩
  have hrest := settled_of_skipBlanks hskip
  have hend : (eat '.').read (' ' :: text) = some (false, rest) := by
    rw [skipsFirst_eat '.' _ _ ((read_skipBlanks_space rfl text).trans hskip) hrest, hrest.read_eat,
      if_neg hdot]
  have hparts := read_tableName_one (hw.read_identifier hends) hend
  rw [htext, (word_alter.settled halter).read_readStatement, wordOf_append word_alter halter,
    if_neg hsemi, if_neg (by decide), if_pos rfl, List.drop_left, readAlter_eq, read_bind, hread,
    Option.bind_some]
  simp only [Bool.not_true, Bool.false_eq_true, if_false]
  rw [read_bind, hnone, Option.bind_some, read_bind, hparts, Option.bind_some]

theorem blank_space : Blank [' '] := fun text hsettled => by
  rw [List.singleton_append, read_skipBlanks_space rfl, hsettled.read_skipBlanks]

theorem word_add : Word "add".toList := ⟨rfl, rfl⟩

theorem word_drop : Word "drop".toList := ⟨rfl, rfl⟩

theorem addKey_ends : EndsWord " primary key (b)".toList := rfl

theorem dropColumn_ends : EndsWord " column c".toList := rfl

theorem addKey_balanced : walk 0 (plainTokens " primary key (b)".toList) = some 0 := by decide

theorem dropColumn_balanced : walk 0 (plainTokens " column c".toList) = some 0 := by decide

/-- `add primary key (b)` -/
def addKey : Action where
  lead := [' ']
  word := "add".toList
  body := " primary key (b)".toList
  tokens := plainTokens " primary key (b)".toList
  edits := [.key "b".toList]
  blank := blank_space
  isWord := word_add
  ends := addKey_ends
  balanced := addKey_balanced

/-- `drop column c` -/
def dropColumn : Action where
  lead := [' ']
  word := "drop".toList
  body := " column c".toList
  tokens := plainTokens " column c".toList
  edits := []
  blank := blank_space
  isWord := word_drop
  ends := dropColumn_ends
  balanced := dropColumn_balanced

theorem addKey_reads [Dangling] (table : Text) : addKey.Reads table := by
  intro next hnext
  refine ⟨next, ?_, hnext.settled.read_skipBlanks⟩
  have hwords : ∀ k ∈ [("b".toList : Text)], Word k := by
    intro k hk
    rw [List.mem_singleton.mp hk]
    exact ⟨rfl, rfl⟩
  have htext : addKey.body ++ next =
      ' ' :: ("primary".toList ++ (" key (".toList ++ (keyText ["b".toList] ++ next))) := rfl
  have hcolumn : (eatKeyword "column".toList).read (addKey.body ++ next) =
      some (false, "primary".toList ++ (" key (".toList ++ (keyText ["b".toList] ++ next))) := by
    rw [htext, (skipsFirst_eatKeyword _).read_space (key_settled next),
      read_key_other ⟨rfl, rfl⟩ (by decide)]
  rw [readAddition, read_bind, hcolumn, Option.bind_some, if_neg Bool.false_ne_true, read_bind, anyOf,
    read_bind, read_key_lead, Option.bind_some, if_pos rfl, read_pure, Option.bind_some, if_pos rfl,
    read_bind, read_key_other ⟨rfl, rfl⟩ (by decide), Option.bind_some, if_neg Bool.false_ne_true,
    read_bind, read_pure, Option.bind_some]
  exact read_key hwords (List.cons_ne_nil _ _) table hnext.read_skip

theorem header_t [Dangling] : Header ("alter table ".toList ++ ("t".toList ++ [' '])) ["t".toList] :=
  header_word ⟨rfl, rfl⟩ (by decide)

section AlterT
variable {actions : List Action} (h : ∀ a ∈ actions, a = addKey ∨ a = dropColumn)
include h

theorem alterT_spelled [Dangling] (rest : Text) : Spelled rest actions := by
  induction actions with
  | nil => trivial
  | cons a as ih =>
    obtain ⟨ha, has⟩ := List.forall_mem_cons.mp h
    refine ⟨?_, ih has⟩
    rcases ha with rfl | rfl <;> exact skims_plain (by decide)

theorem alterT_reads [Dangling] (table : Text) : ∀ a ∈ actions, a.adds = true → a.Reads table := by
  intro a ha hadds
  rcases h a ha with rfl | rfl
  · exact addKey_reads table
  · exact absurd hadds (by decide)

end AlterT

def alterT [Dangling] (table : Text) (actions : List Action)
    (h : ∀ a ∈ actions, a = addKey ∨ a = dropColumn) : Alteration table where
  header := "alter table ".toList ++ ("t".toList ++ [' '])
  parts := ["t".toList]
  actions := actions
  opens := header_t
  spelled := alterT_spelled h []
  reads := alterT_reads h table

/-- What is said once `t` is created. -/
def createdT : Content := ({} : Content).apply (.target "t".toList ["a".toList])

theorem word_a : ∀ k ∈ [("a".toList : Text)], Word k := by
  intro k hk
  rw [List.mem_singleton.mp hk]
  exact ⟨rfl, rfl⟩

theorem says_createdT [Dangling] : Says (targetText "t".toList ["a".toList] ++ [';']) createdT := by
  intro r
  rw [schemaOf_eq, List.append_assoc, List.singleton_append,
    schemaFrom_target {} _ word_a (List.cons_ne_nil _ _) (.inr ⟨r, rfl⟩)]
  rfl

theorem createdT_table : createdT.out.tables[0]? = some (targetTable "t".toList ["a".toList]) := rfl

theorem createdT_found : findTable createdT.out.tables ["t".toList] = some 0 := rfl

theorem both_known : ∀ a ∈ [addKey, dropColumn], a = addKey ∨ a = dropColumn := by simp

theorem both_known' : ∀ a ∈ [dropColumn, addKey], a = addKey ∨ a = dropColumn := by simp

section Small
attribute [local instance] Dangling.small

/-- Behind `create table "t" (primary key (a));` the key of
`alter table t add primary key (b), drop column c` is read. -/
theorem added_key_stays :
    schemaOf (targetText "t".toList ["a".toList] ++ [';'] ++
      (alterT "t".toList [addKey, dropColumn] both_known).text "; create table u (d int)".toList) =
    schemaOf (targetText "t".toList ["a".toList] ++ [';'] ++
      (alterT "t".toList [addKey, dropColumn] both_known).kept "; create table u (d int)".toList) :=
  (alter_applies_additions_iff says_createdT createdT_table
    (alterT "t".toList [addKey, dropColumn] both_known) createdT_found).2
      ⟨by decide, fun e he => absurd he List.not_mem_nil⟩ _ (.inr ⟨_, rfl⟩)

/-- Behind `drop column c,` it is lost, and so is a column. -/
theorem added_key_is_lost :
    (¬ ∀ rest, EndsStatement rest →
      (schemaOf (targetText "t".toList ["a".toList] ++ [';'] ++
        (alterT "t".toList [dropColumn, addKey] both_known').text rest)).map (fun out => out.tables[0]?) =
      (schemaOf (targetText "t".toList ["a".toList] ++ [';'] ++
        (alterT "t".toList [dropColumn, addKey] both_known').kept rest)).map fun out => out.tables[0]?) ∧
    schemaOf "create table t (a int); alter table t drop column a, add column b int".toList =
      schemaOf "create table t (a int); alter table t".toList ∧
    schemaOf "create table t (a int); alter table t add column b int".toList ≠
      schemaOf "create table t (a int); alter table t".toList := by
  have hlost : (schemaOf (targetText "t".toList ["a".toList] ++ [';'] ++
        (alterT "t".toList [dropColumn, addKey] both_known').text [])).map (fun out => out.tables[0]?) ≠
      (schemaOf (targetText "t".toList ["a".toList] ++ [';'] ++
        (alterT "t".toList [dropColumn, addKey] both_known').kept [])).map fun out => out.tables[0]? := by
    decide +kernel
  refine ⟨fun h => ?_, ?_, ?_⟩
  · exact hlost (h [] (.inl rfl))
  · decide +kernel
  · decide +kernel

end Small

end Uniorm.Ddl
