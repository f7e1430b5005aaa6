import Uniorm.Ddl.Effect
import Uniorm.Ddl.Items

/-! # The actions of ALTER TABLE

Two loops share the list of actions. The first carries actions out as long as
they begin with ADD; the second skips what is left, whatever it begins with.
`Alteration` is the statement with its list of actions, and what it leaves of
its table is told by where the first loop stops.
-/
namespace Uniorm.Ddl

open Foundation Foundation.Scan Sql Builder Schema

def Blank (lead : Text) : Prop :=
  ∀ text, Settled text → skipBlanks.read (lead ++ text) = some ((), text)

/-- One action of the list, with the tokens that are skipped where it is skipped and the edits
that are made where it is carried out. -/
structure Action where
  lead : Text
  word : Text
  body : Text
  tokens : List Token
  edits : List Edit
  blank : Blank lead
  isWord : Word word
  ends : EndsWord body
  balanced : walk 0 tokens = some 0

namespace Action

def text (a : Action) : Text := a.lead ++ (a.word ++ a.body)

def adds (a : Action) : Bool := foldLower a.word == "add".toList

theorem ne_nil (a : Action) : a.word ≠ [] := by
  obtain ⟨c, cs, hword, -⟩ := a.isWord.eq_cons
  rw [hword]
  exact List.cons_ne_nil c cs

def Reads [Dangling] (a : Action) (table : Text) : Prop :=
  ∀ next, Stop next → ∃ left, (readAddition table).read (a.body ++ next) = some (a.edits, left) ∧
    skipBlanks.read left = some ((), next)

def note (a : Action) (parts : List Text) : Edit :=
  .ignore ("ALTER TABLE ".toList ++ lastPart parts ++ ' ' :: a.word ++ " action".toList)

end Action

def follow (rest : Text) : List Action → Text
  | [] => rest
  | a :: as => ',' :: (a.text ++ follow rest as)

def actionsText (rest : Text) : List Action → Text
  | [] => rest
  | a :: as => a.text ++ follow rest as

def settledText (rest : Text) : List Action → Text
  | [] => rest
  | a :: as => a.word ++ (a.body ++ follow rest as)

def Spelled [Dangling] (rest : Text) : List Action → Prop
  | [] => True
  | a :: as => Skims (follow rest as) a.body a.tokens ∧ Spelled rest as

theorem ends_append {body next : Text} (h : EndsWord body) (hnext : Stop next) :
    EndsWord (body ++ next) := by
  cases body with
  | nil => rcases hnext.cases with rfl | ⟨r, rfl⟩ | ⟨r, rfl⟩ <;> rfl
  | cons c cs => exact h

theorem Spelled.dropWhile [Dangling] {rest : Text} {as : List Action} (h : Spelled rest as)
    (p : Action → Bool) :
    Spelled rest (as.dropWhile p) := by
  induction as with
  | nil => trivial
  | cons a as ih =>
    rw [List.dropWhile_cons]
    split_ifs
    · exact ih h.2
    · exact h

section Text
variable {rest : Text} (hrest : EndsStatement rest)
include hrest

theorem follow_stop (as : List Action) : Stop (follow rest as) := by
  cases as with
  | nil => exact hrest.stop
  | cons a as => exact stop_comma _

theorem word_piece (a : Action) (as : List Action) :
    Piece a.word (.word a.word) (a.body ++ follow rest as) :=
  .word a.isWord (ends_append a.ends (follow_stop hrest as))

theorem settledText_settled (as : List Action) : Settled (settledText rest as) := by
  cases as with
  | nil => exact hrest.stop.settled
  | cons a as => exact (word_piece hrest a as).settled

theorem read_skipBlanks_actions (as : List Action) :
    skipBlanks.read (actionsText rest as) = some ((), settledText rest as) := by
  cases as with
  | nil => exact hrest.stop.settled.read_skipBlanks
  | cons a as =>
    have hblank := a.blank _ (settledText_settled hrest (a :: as))
    rw [settledText] at hblank
    rw [actionsText, Action.text, List.append_assoc, List.append_assoc, hblank, settledText]

theorem Spelled.stop [Dangling] {as : List Action} (h : Spelled [] as)
    (hdollar : ∀ a ∈ as, .dollar ∉ a.tokens) : Spelled rest as := by
  induction as with
  | nil => trivial
  | cons a as ih =>
    obtain ⟨ha, has⟩ := List.forall_mem_cons.mp hdollar
    exact ⟨h.1.stop ha (follow_stop hrest as), ih h.2 has⟩

end Text

/-- One round of the loop that carries actions out. -/
def addStep [Dangling] (table : Text) (edits : List Edit) : Reading (List Edit ⊕ List Edit) := do
  let add ← eatKeyword "add".toList
  if add then
    let item ← readAddition table
    let more ← eat ','
    pure (if more then .inl (edits ++ item) else .inr (edits ++ item))
  else pure (.inr edits)

theorem readAdditions_eq [Dangling] (table : Text) : readAdditions table = loop (addStep table) [] := rfl

/-- One round of the loop that skips actions. -/
def otherStep [Dangling] (parts : List Text) (edits : List Edit) : Reading (List Edit ⊕ List Edit) := do
  let atEnd ← atItemEnd
  if atEnd then pure (.inr edits)
  else
    let action ← here
    skipItem
    let more ← eat ','
    let edits := edits ++ [.ignore ("ALTER TABLE ".toList ++ lastPart parts ++ ' ' :: action ++
      " action".toList)]
    pure (if more then .inl edits else .inr edits)

theorem readOtherActions_eq [Dangling] (parts : List Text) :
    readOtherActions parts = loop (otherStep parts) [] := rfl

theorem otherStep_consumes [Dangling] (parts : List Text) (edits : List Edit) :
    (otherStep parts edits).Consumes := by
  intro text s rest h
  rw [otherStep, read_bind] at h
  obtain ⟨⟨atEnd, text'⟩, hend, h⟩ := Option.bind_eq_some_iff.mp h
  rw [atItemEnd, read_bind] at hend
  obtain ⟨⟨u, settled⟩, hskip, hend⟩ := Option.bind_eq_some_iff.mp hend
  obtain ⟨rfl, rfl⟩ := Prod.mk.inj (Option.some.inj hend)
  have hsettled := settled_of_skipBlanks hskip
  refine Nat.lt_of_lt_of_le ?_ (read_length_le hskip)
  cases settled with
  | nil => cases h
  | cons c cs =>
    split_ifs at h with hstop
    · cases h
    · rw [read_bind] at h
      obtain ⟨q, hhere, h⟩ := Option.bind_eq_some_iff.mp h
      rw [read_bind] at h
      obtain ⟨q', hitem, h⟩ := Option.bind_eq_some_iff.mp h
      rw [read_bind] at h
      obtain ⟨q'', hcomma, h⟩ := Option.bind_eq_some_iff.mp h
      obtain ⟨-, rfl⟩ := Prod.mk.inj (Option.some.inj h)
      have hless := hsettled.here_consumes (List.cons_ne_nil c cs) hhere
      exact Nat.lt_of_le_of_lt ((read_length_le hcomma).trans (read_length_le hitem)) hless

/-- What stands behind an action is less than what the action stands in front of. -/
theorem actions_shorter {rest text : Text} {a b : Action} {as : List Action}
    (h : skipBlanks.read text = some ((), settledText rest (a :: b :: as))) :
    (actionsText rest (b :: as)).length < text.length := by
  have hword := List.length_pos_iff.mpr a.ne_nil
  have hskip : (settledText rest (a :: b :: as)).length ≤ text.length := read_length_le h
  rw [settledText, follow, List.length_append, List.length_append, List.length_cons] at hskip
  rw [actionsText]
  omega

section Loops
variable {rest text : Text} (hrest : EndsStatement rest)
include hrest

theorem read_comma {left : Text} {as : List Action}
    (h : skipBlanks.read left = some ((), follow rest as)) : (eat ',').read left =
      some (!as.isEmpty, actionsText rest as) := by
  have hstop := follow_stop hrest as
  rw [skipsFirst_eat _ _ _ h hstop.settled, hstop.settled.read_eat]
  cases as with
  | nil => rcases hrest with rfl | ⟨r, rfl⟩ <;> rfl
  | cons a as => rfl

theorem read_add_nil (h : skipBlanks.read text = some ((), rest)) :
    (eatKeyword "add".toList).read text = some (false, rest) := by
  rw [skipsFirst_eatKeyword _ _ _ h hrest.stop.settled,
    hrest.stop.settled.read_eatKeyword (show Word "add".toList from ⟨rfl, rfl⟩)]
  rcases hrest with rfl | ⟨r, rfl⟩ <;> rfl

theorem read_add {a : Action} {as : List Action}
    (h : skipBlanks.read text = some ((), settledText rest (a :: as))) :
    (eatKeyword "add".toList).read text =
      some (if a.adds then (true, a.body ++ follow rest as)
        else (false, settledText rest (a :: as))) := by
  have hsettled := settledText_settled hrest (a :: as)
  have hword : wordOf (settledText rest (a :: as)) = a.word := (word_piece hrest a as).wordOf_eq
  rw [skipsFirst_eatKeyword _ _ _ h hsettled,
    hsettled.read_eatKeyword (show Word "add".toList from ⟨rfl, rfl⟩), hword]
  by_cases hadd : foldLower a.word = "add".toList
  · have hlength : "add".toList.length = a.word.length := by
      rw [← hadd, foldLower_length]
    have hadds : a.adds = true := beq_iff_eq.mpr hadd
    rw [if_pos (show foldLower a.word = foldLower "add".toList from hadd), hadds, if_pos rfl,
      settledText, hlength, List.drop_left]
  · have hadds : a.adds = false := beq_false_of_ne hadd
    rw [if_neg (show ¬ foldLower a.word = foldLower "add".toList from hadd), hadds,
      if_neg Bool.false_ne_true]

/-- The first loop carries out what stands in front of the first action that adds nothing. -/
theorem read_additions [Dangling] {table : Text} {as : List Action}
    (hreads : ∀ a ∈ as, a.adds = true → a.Reads table) (edits : List Edit)
    (h : skipBlanks.read text = some ((), settledText rest as)) :
    (loop (addStep table) edits).read text =
      some (edits ++ (as.takeWhile Action.adds).flatMap Action.edits,
        settledText rest (as.dropWhile Action.adds)) := by
  induction as generalizing text edits with
  | nil =>
    have hstep : (addStep table edits).read text = some (.inr edits, rest) := by
      rw [addStep, read_bind, read_add_nil hrest h]
      rfl
    rw [read_loop_done hstep, List.takeWhile_nil, List.flatMap_nil, List.append_nil,
      List.dropWhile_nil, settledText]
  | cons a as ih =>
    obtain ⟨hthis, hmore⟩ := List.forall_mem_cons.mp hreads
    have hadd := read_add hrest h
    cases hadds : a.adds with
    | false =>
      have hnot : ¬ a.adds = true := by
        rw [hadds]
        exact Bool.false_ne_true
      have hstep : (addStep table edits).read text =
          some (.inr edits, settledText rest (a :: as)) := by
        rw [addStep, read_bind, hadd, if_neg hnot]
        rfl
      rw [read_loop_done hstep, List.takeWhile_cons_of_neg hnot, List.dropWhile_cons_of_neg hnot,
        List.flatMap_nil, List.append_nil]
    | true =>
      obtain ⟨left, hitem, hleft⟩ := hthis hadds (follow rest as) (follow_stop hrest as)
      have hstep : (addStep table edits).read text =
          some (if !as.isEmpty then .inl (edits ++ a.edits) else .inr (edits ++ a.edits),
            actionsText rest as) := by
        rw [addStep, read_bind, hadd, if_pos hadds, Option.bind_some, if_pos rfl, read_bind, hitem,
          Option.bind_some, read_bind, read_comma hrest hleft]
        rfl
      rw [List.takeWhile_cons_of_pos hadds, List.dropWhile_cons_of_pos hadds, List.flatMap_cons,
        ← List.append_assoc]
      cases as with
      | nil =>
        rw [read_loop_done hstep, List.takeWhile_nil, List.flatMap_nil, List.append_nil]
        rfl
      | cons b as =>
        exact read_loop_step hstep (actions_shorter h)
          (ih hmore (edits ++ a.edits) (read_skipBlanks_actions hrest (b :: as)))

theorem read_atItemEnd (as : List Action)
    (h : skipBlanks.read text = some ((), settledText rest as)) :
    atItemEnd.read text = some (as.isEmpty, settledText rest as) := by
  rw [atItemEnd, read_bind, h, Option.bind_some, read_bind, read_peek, Option.bind_some, read_pure]
  cases as with
  | nil => rcases hrest with rfl | ⟨r, rfl⟩ <;> rfl
  | cons a as =>
    obtain ⟨c, cs, hword, hc⟩ := a.isWord.eq_cons
    have hends : ((c == ',' || c == ')') || c == ';') = false := by
      rw [beq_false_of_ne (ne_of_identStart hc rfl), beq_false_of_ne (ne_of_identStart hc rfl),
        beq_false_of_ne (ne_of_identStart hc rfl)]
      rfl
    rw [settledText, hword, List.cons_append, List.head?_cons, Option.all_some, hends]
    rfl

/-- What the second loop does with one action. -/
theorem read_otherStep [Dangling] (parts : List Text) (edits : List Edit) {a : Action} {as : List Action}
    (hskims : Skims (follow rest as) a.body a.tokens)
    (h : skipBlanks.read text = some ((), settledText rest (a :: as))) :
    (otherStep parts edits).read text =
      if .dollar ∈ a.tokens then none
      else some (if !as.isEmpty then .inl (edits ++ [a.note parts]) else .inr (edits ++ [a.note parts]),
        actionsText rest as) := by
  have hpiece := word_piece hrest a as
  have hstart : (a.word ++ (a.body ++ follow rest as)).head?.any identStart = true := by
    obtain ⟨c, cs, hword, hc⟩ := a.isWord.eq_cons
    rw [hword]
    exact hc
  have hhere : here.read (settledText rest (a :: as)) =
      some (a.word, a.body ++ follow rest as) := by
    rw [settledText, hpiece.settled.read_here_word hstart, hpiece.wordOf_eq, Lexeme.wordText,
      List.drop_left]
  have hstop := follow_stop hrest as
  rw [otherStep, read_bind, read_atItemEnd hrest (a :: as) h, Option.bind_some, List.isEmpty_cons,
    if_neg Bool.false_ne_true, read_bind, hhere, Option.bind_some, read_bind, skipItem_eq,
    hskims.read_skip hstop a.balanced]
  by_cases hdollar : .dollar ∈ a.tokens
  · rw [if_pos hdollar, if_pos hdollar]
    rfl
  · rw [if_neg hdollar, if_neg hdollar, Option.bind_some, read_bind,
      read_comma hrest hstop.settled.read_skipBlanks]
    rfl

/-- The second loop reports every action that is left. -/
theorem read_others [Dangling] {parts : List Text} {as : List Action} (hspelled : Spelled rest as)
    (hdollar : ∀ a ∈ as, .dollar ∉ a.tokens) (edits : List Edit)
    (h : skipBlanks.read text = some ((), settledText rest as)) :
    (loop (otherStep parts) edits).read text =
      some (edits ++ as.map fun a => a.note parts, rest) := by
  induction as generalizing text edits with
  | nil =>
    have hstep : (otherStep parts edits).read text = some (.inr edits, rest) := by
      rw [otherStep, read_bind, read_atItemEnd hrest [] h]
      rfl
    rw [read_loop_done hstep, List.map_nil, List.append_nil]
  | cons a as ih =>
    obtain ⟨hthis, hmore⟩ := List.forall_mem_cons.mp hdollar
    have hstep := read_otherStep hrest parts edits hspelled.1 h
    rw [if_neg hthis] at hstep
    cases as with
    | nil =>
      rw [read_loop_done hstep]
      rfl
    | cons b as =>
      have hgo := ih hspelled.2 hmore (edits ++ [a.note parts])
        (read_skipBlanks_actions hrest (b :: as))
      rw [read_loop_step hstep (actions_shorter h) hgo, List.append_assoc]
      rfl

/-- A stray `$` in one of them makes the script fail. -/
theorem read_others_dollar [Dangling] {parts : List Text} {as : List Action} (hspelled : Spelled rest as)
    (hdollar : ∃ a ∈ as, .dollar ∈ a.tokens) (edits : List Edit)
    (h : skipBlanks.read text = some ((), settledText rest as)) :
    (loop (otherStep parts) edits).read text = none := by
  induction as generalizing text edits with
  | nil =>
    obtain ⟨a, ha, -⟩ := hdollar
    cases ha
  | cons a as ih =>
    have hstep := read_otherStep hrest parts edits hspelled.1 h
    by_cases hthis : .dollar ∈ a.tokens
    · rw [if_pos hthis] at hstep
      rw [read_loop (otherStep_consumes parts), hstep]
      rfl
    · rw [if_neg hthis] at hstep
      obtain ⟨b, hb, hmem⟩ := hdollar
      rcases List.mem_cons.mp hb with rfl | hb
      · exact absurd hmem hthis
      · cases as with
        | nil => cases hb
        | cons c as =>
          rw [read_loop (otherStep_consumes parts), hstep]
          exact ih hspelled.2 ⟨b, hb, hmem⟩ _ (read_skipBlanks_actions hrest (c :: as))

end Loops

/-- What `read_alter` does behind the name of the table. -/
def readActions [Dangling] (tables : List Text → Option Text) (parts : List Text) : Reading Command :=
  match tables parts with
  | none => do
    statementEnd
    pure (.alterMissing parts)
  | some table => do
    let added ← readAdditions table
    let others ← readOtherActions parts
    statementEnd
    pure (.alter parts (added ++ others ++ [.applyKeys]))

theorem readAlter_eq [Dangling] (tables : List Text → Option Text) : readAlter tables = (do
    let table ← eatKeyword "table".toList
    if !table then
      let what ← here
      statementEnd
      pure (.ignored ("ALTER ".toList ++ what))
    else
    eatKeywords (["if", "only", "exists"].map String.toList)
    let parts ← tableName
    readActions tables parts) := rfl

/-- A text that is read as ALTER TABLE and the name of a table. -/
structure Header [Dangling] (header : Text) (parts : List Text) : Prop where
  word : header.head?.any identStart = true
  reads : ∀ tables text rest, skipBlanks.read text = some ((), rest) → rest.head? ≠ some '.' →
    (readStatement tables).read (header ++ text) = (readActions tables parts).read rest

theorem settledText_head {rest : Text} (hrest : EndsStatement rest) (as : List Action) :
    (settledText rest as).head? ≠ some '.' := by
  cases as with
  | nil => exact hrest.stop.head_ne (by decide) (by decide)
  | cons a as =>
    obtain ⟨c, cs, hword, hc⟩ := a.isWord.eq_cons
    rw [settledText, hword]
    exact fun heq => ne_of_identStart hc rfl (Option.some.inj heq)

section Header
variable [Dangling] {rest header : Text} {parts : List Text} (h : Header header parts)
  (hrest : EndsStatement rest) {table : Text} {tables : List Text → Option Text}
  (htable : tables parts = some table) {as : List Action}
  (hreads : ∀ a ∈ as, a.adds = true → a.Reads table)
  (hspelled : Spelled rest (as.dropWhile Action.adds))
include h hrest htable hreads hspelled

/-- The actions from the first one on that adds nothing are reported, the others are carried out. -/
theorem Header.read_alter (hdollar : ∀ a ∈ as.dropWhile Action.adds, .dollar ∉ a.tokens) :
    (readStatement tables).read (header ++ actionsText rest as) =
      some (.alter parts ((as.takeWhile Action.adds).flatMap Action.edits ++
        (as.dropWhile Action.adds).map (fun a => a.note parts) ++ [.applyKeys]), rest.tail) := by
  have hsettled := settledText_settled hrest (as.dropWhile Action.adds)
  rw [h.reads tables _ _ (read_skipBlanks_actions hrest as) (settledText_head hrest as), readActions,
    htable]
  simp only [read_bind, read_pure]
  rw [readAdditions_eq, read_additions hrest hreads [] (settledText_settled hrest as).read_skipBlanks,
    Option.bind_some, readOtherActions_eq,
    read_others hrest hspelled hdollar [] hsettled.read_skipBlanks, Option.bind_some,
    read_statementEnd hrest, Option.bind_some, List.nil_append, List.nil_append]

theorem Header.read_dollar (hdollar : ∃ a ∈ as.dropWhile Action.adds, .dollar ∈ a.tokens) :
    (readStatement tables).read (header ++ actionsText rest as) = none := by
  have hsettled := settledText_settled hrest (as.dropWhile Action.adds)
  rw [h.reads tables _ _ (read_skipBlanks_actions hrest as) (settledText_head hrest as), readActions,
    htable]
  simp only [read_bind, read_pure]
  rw [readAdditions_eq, read_additions hrest hreads [] (settledText_settled hrest as).read_skipBlanks,
    Option.bind_some, readOtherActions_eq,
    read_others_dollar hrest hspelled hdollar [] hsettled.read_skipBlanks]
  rfl

end Header

/-- ALTER TABLE of a table the script spells so, with its actions. -/
structure Alteration [Dangling] (table : Text) where
  header : Text
  parts : List Text
  actions : List Action
  opens : Header header parts
  spelled : Spelled [] actions
  reads : ∀ a ∈ actions, a.adds = true → a.Reads table

namespace Alteration
variable [Dangling] {table : Text} (alt : Alteration table)

/-- The statement in front of what ends it. -/
def text (rest : Text) : Text := alt.header ++ actionsText rest alt.actions

/-- The statement that keeps only the adding actions. -/
def kept (rest : Text) : Text := alt.header ++ actionsText rest (alt.actions.filter Action.adds)

def front : List Action := alt.actions.takeWhile Action.adds

def behind : List Action := alt.actions.dropWhile Action.adds

def edits : List Edit := alt.front.flatMap Action.edits

def late : List Edit := (alt.behind.filter Action.adds).flatMap Action.edits

end Alteration

end Uniorm.Ddl
