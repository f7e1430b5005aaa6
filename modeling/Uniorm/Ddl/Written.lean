import Uniorm.Ddl.Again

/-! # The text of a name

Names are written between quotes, so that any name can be written and no word of
a name is taken for a keyword. What the readers make of a name, and of lists of
names, is told in front of what may stand behind an item of a list.
-/
namespace Uniorm.Ddl

open Foundation Foundation.Scan Sql Builder Schema

/-- An item begins with a quoted name or a word. -/
def Starts (text : Text) : Prop := ∃ c cs, text = c :: cs ∧ (c = '"' ∨ identStart c = true)

section Ends
variable {text rest : Text}

theorem closes_comma (r : Text) : Closes (',' :: r) := ⟨_, _, rfl, .inl rfl⟩

theorem closes_parenthesis (r : Text) : Closes (')' :: r) := ⟨_, _, rfl, .inr rfl⟩

theorem Closes.settled (h : Closes rest) : Settled rest := by
  obtain ⟨c, r, rfl, rfl | rfl⟩ := h <;> exact ⟨rfl, rfl, rfl⟩

theorem Closes.head_ne (h : Closes rest) {c : Char} (hcomma : c ≠ ',') (hclose : c ≠ ')') :
    rest.head? ≠ some c := by
  obtain ⟨d, r, rfl, rfl | rfl⟩ := h
  · exact fun heq => hcomma (Option.some.inj heq).symm
  · exact fun heq => hclose (Option.some.inj heq).symm

theorem Closes.wordOf (h : Closes rest) : wordOf rest = [] := by
  obtain ⟨c, r, rfl, rfl | rfl⟩ := h <;> rfl

theorem Closes.endsWord (h : Closes rest) : EndsWord rest := by
  obtain ⟨c, r, rfl, rfl | rfl⟩ := h <;> rfl

theorem Closes.read_skipItem [Dangling] (h : Closes rest) : skipItem.read rest = some ((), rest) := by
  have hsettled := h.settled
  obtain ⟨c, r, rfl, hc⟩ := h
  rw [skipItem_eq]
  refine read_loop_done ?_
  rw [hsettled.read_skipStep, if_pos (.inr ⟨rfl, hc⟩)]

theorem Closes.read_atItemEnd (h : Closes rest) : atItemEnd.read rest = some (true, rest) := by
  have hsettled := h.settled
  obtain ⟨c, r, rfl, hc⟩ := h
  rw [atItemEnd, read_bind, hsettled.read_skipBlanks]
  rcases hc with rfl | rfl <;> rfl

theorem Starts.settled (h : Starts text) (rest : Text) : Settled (text ++ rest) := by
  obtain ⟨c, cs, rfl, rfl | hc⟩ := h
  · exact settled_of_quoteStart rfl _
  · exact settled_of_head (by
      cases hspace : isSpace c with
      | false => rfl
      | true =>
        rw [identStart_of_isSpace hspace] at hc
        cases hc) ⟨ne_of_identStart hc rfl, ne_of_identStart hc rfl⟩ (ne_of_identStart hc rfl) _

theorem Starts.head_ne (h : Starts text) {c : Char} (hquote : c ≠ '"') (hc : identStart c = false)
    (rest : Text) : (text ++ rest).head? ≠ some c := by
  obtain ⟨d, cs, rfl, rfl | hd⟩ := h
  · exact fun heq => hquote (Option.some.inj heq).symm
  · exact fun heq => ne_of_identStart hd hc (Option.some.inj heq)

theorem starts_delimited (name : Text) : Starts (delimited .double name) := ⟨_, _, rfl, .inl rfl⟩

theorem Starts.append (h : Starts text) (more : Text) : Starts (text ++ more) := by
  obtain ⟨c, cs, rfl, hc⟩ := h
  exact ⟨c, cs ++ more, rfl, hc⟩

end Ends

section Lists
variable {α β : Type}

def listStep [Dangling] (item : Reading α) (add : β → α → β) (s : β) : Reading (β ⊕ β) := do
  let closed ← eat ')'
  if closed then pure (.inr s)
  else
    let a ← item
    let more ← eat ','
    if more then pure (.inl (add s a))
    else
      expect ')'
      pure (.inr (add s a))

structure Reads (item : Reading α) (text : Text) (a : α) : Prop where
  starts : Starts text
  read : ∀ {rest}, Closes rest → item.read (text ++ rest) = some (a, rest)

variable {item : Reading α} {add : β → α → β}

theorem Reads.read_listStep_last [Dangling] {text : Text} {a : α} (h : Reads item text a) (s : β)
    (rest : Text) : (listStep item add s).read (text ++ ')' :: rest) =
      some (.inr (add s a), rest) := by
  have hsettled := h.starts.settled (')' :: rest)
  have hclosed : (eat ')').read (text ++ ')' :: rest) = some (false, text ++ ')' :: rest) := by
    rw [hsettled.read_eat, if_neg (h.starts.head_ne (by decide) rfl _)]
  rw [listStep, read_bind, hclosed, Option.bind_some, if_neg Bool.false_ne_true, read_bind,
    h.read (closes_parenthesis rest)]
  rfl

theorem Reads.read_listStep_more [Dangling] {text : Text} {a : α} (h : Reads item text a) (s : β)
    (rest : Text) : (listStep item add s).read (text ++ ',' :: rest) =
      some (.inl (add s a), rest) := by
  have hsettled := h.starts.settled (',' :: rest)
  have hclosed : (eat ')').read (text ++ ',' :: rest) = some (false, text ++ ',' :: rest) := by
    rw [hsettled.read_eat, if_neg (h.starts.head_ne (by decide) rfl _)]
  rw [listStep, read_bind, hclosed, Option.bind_some, if_neg Bool.false_ne_true, read_bind,
    h.read (closes_comma rest)]
  rfl

theorem read_list [Dangling] {body : β → Reading (β ⊕ β)}
    (hbody : ∀ s text, (body s).read text = (listStep item add s).read text) {texts : List Text}
    {as : List α} (h : List.Forall₂ (Reads item) texts as) (s : β) (rest : Text) :
    (loop body s).read (keyText texts ++ rest) = some (as.foldl add s, rest) := by
  induction h generalizing s with
  | nil =>
    refine read_loop_done ?_
    rw [hbody]
    rfl
  | @cons text a texts as hitem hmore ih =>
    cases hmore with
    | nil =>
      have htext : keyText [text] ++ rest = text ++ ')' :: rest := by
        rw [keyText, List.append_assoc]
        rfl
      rw [htext]
      exact read_loop_done ((hbody _ _).trans (hitem.read_listStep_last s rest))
    | @cons text' a' texts as hitem' hmore =>
      have htext : keyText (text :: text' :: texts) ++ rest =
          text ++ ',' :: (keyText (text' :: texts) ++ rest) := by
        rw [keyText, List.append_assoc]
        · rfl
        · exact List.cons_ne_nil _ _
      have hlt : (keyText (text' :: texts) ++ rest).length <
          (text ++ ',' :: (keyText (text' :: texts) ++ rest)).length := by
        simp only [List.length_append, List.length_cons]
        omega
      rw [htext]
      exact read_loop_step ((hbody _ _).trans (hitem.read_listStep_more s _)) hlt (ih (add s a))

end Lists

theorem reads_delimited [Dangling] (name : Text) : Reads identifier (delimited .double name) name where
  starts := starts_delimited name
  read hrest := read_identifier_quoted name (hrest.head_ne (by decide) (by decide))

def namesText (names : List Text) : Text := '(' :: keyText (names.map (delimited .double))

theorem forall₂_delimited {item : Reading Text} (h : ∀ name, Reads item (delimited .double name) name)
    (names : List Text) : List.Forall₂ (Reads item) (names.map (delimited .double)) names := by
  induction names with
  | nil => exact .nil
  | cons name names ih => exact .cons (h name) ih

theorem foldl_names (names : List Text) :
    names.foldl (fun names name => names ++ [name]) [] = names := by
  have happend : ∀ before : List Text,
      names.foldl (fun names name => names ++ [name]) before = before ++ names := by
    induction names with
    | nil => exact fun before => (List.append_nil before).symm
    | cons name names ih => exact fun before => (ih _).trans (List.append_assoc ..)
  exact happend []

theorem settled_parenthesis (text : Text) : Settled ('(' :: text) :=
  settled_of_head rfl ⟨by decide, by decide⟩ (by decide) text

theorem read_nameList [Dangling] (names : List Text) (rest : Text) :
    nameList.read (namesText names ++ rest) = some (names, rest) := by
  have hlist := read_list (fun s text => show (nameStep s).read text = _ from rfl)
    (forall₂_delimited reads_delimited names) [] rest
  rw [foldl_names] at hlist
  rw [nameList_eq, read_bind, namesText, List.cons_append, (settled_parenthesis _).read_expect rfl]
  exact hlist

/-- One round of `index_columns`. -/
def indexStep [Dangling] (names : List Text) : Reading (List Text ⊕ List Text) := do
  let closed ← eat ')'
  if closed then pure (.inr names)
  else
    let name ← identifier
    skipItem
    let more ← eat ','
    if more then pure (.inl (names ++ [name]))
    else
      expect ')'
      pure (.inr (names ++ [name]))

theorem indexColumns_eq [Dangling] : indexColumns = (do
    expect '('
    loop indexStep []) := rfl

def indexItem [Dangling] : Reading Text := do
  let name ← identifier
  skipItem
  pure name

theorem read_indexStep [Dangling] (names : List Text) (text : Text) : (indexStep names).read text =
    (listStep indexItem (fun names name => names ++ [name]) names).read text := by
  rw [indexStep, listStep, indexItem]
  simp only [read_bind, read_ite, Option.bind_assoc, read_pure, Option.bind_some]

theorem reads_indexItem [Dangling] (name : Text) : Reads indexItem (delimited .double name) name where
  starts := starts_delimited name
  read hrest := by
    rw [indexItem, read_bind, (reads_delimited name).read hrest, Option.bind_some, read_bind,
      hrest.read_skipItem]
    rfl

theorem read_indexColumns [Dangling] (names : List Text) (rest : Text) :
    indexColumns.read (namesText names ++ rest) = some (names, rest) := by
  have hlist := read_list read_indexStep (forall₂_delimited reads_indexItem names) [] rest
  rw [foldl_names] at hlist
  rw [indexColumns_eq, read_bind, namesText, List.cons_append,
    (settled_parenthesis _).read_expect rfl]
  exact hlist

def nameText : List Text → Text
  | [] => []
  | part :: parts => delimited .double part ++ parts.flatMap fun part => '.' :: delimited .double part

theorem read_parts [Dangling] {parts : List Text} {before : List Text} {text rest : Text}
    (hend : (eat '.').read text = some (false, rest)) (hhead : text.head? ≠ some '"') :
    (loop partStep before).read ((parts.flatMap fun part => '.' :: delimited .double part) ++ text) =
      some (before ++ parts, rest) := by
  induction parts generalizing before with
  | nil =>
    refine read_loop_done ?_
    rw [List.flatMap_nil, List.nil_append, partStep, read_bind, hend, List.append_nil]
    rfl
  | cons part parts ih =>
    have hdot : (eat '.').read ('.' :: (delimited .double part ++
        ((parts.flatMap fun part => '.' :: delimited .double part) ++ text))) =
        some (true, delimited .double part ++
          ((parts.flatMap fun part => '.' :: delimited .double part) ++ text)) := by
      rw [(settled_of_head rfl ⟨by decide, by decide⟩ (by decide) _ :
        Settled ('.' :: _)).read_eat, List.head?_cons, if_pos rfl, List.drop_succ_cons,
        List.drop_zero]
    have hbehind : ((parts.flatMap fun part => '.' :: delimited .double part) ++ text).head? ≠ some
      '"' := by
      cases parts with
      | nil => exact hhead
      | cons part' parts => exact fun heq => absurd (Option.some.inj heq) (by decide)
    have hstep : (partStep before).read ('.' :: (delimited .double part ++
        ((parts.flatMap fun part => '.' :: delimited .double part) ++ text))) =
          some (.inl (before ++ [part]),
            (parts.flatMap fun part => '.' :: delimited .double part) ++ text) := by
      rw [partStep, read_bind, hdot, Option.bind_some, if_pos rfl, read_bind,
        read_identifier_quoted part hbehind]
      rfl
    have htext : ((part :: parts).flatMap fun part => '.' :: delimited .double part) ++ text =
        '.' ::
          (delimited .double part ++ ((parts.flatMap fun part => '.' :: delimited .double part) ++ text)) := by
      rw [List.flatMap_cons, List.append_assoc, List.cons_append]
    rw [htext]
    refine read_loop_step hstep ?_ ?_
    · simp only [List.length_cons, List.length_append]
      omega
    · rw [ih, List.append_assoc]
      rfl

theorem read_qualified [Dangling] {part : Text} {parts : List Text} {text rest : Text}
    (hend : (eat '.').read text = some (false, rest)) (hhead : text.head? ≠ some '"') :
    qualified.read (nameText (part :: parts) ++ text) = some (part :: parts, rest) := by
  have hbehind : ((parts.flatMap fun part => '.' :: delimited .double part) ++ text).head? ≠ some '"' := by
    cases parts with
    | nil => exact hhead
    | cons part' parts => exact fun heq => absurd (Option.some.inj heq) (by decide)
  rw [nameText, List.append_assoc, qualified_eq, read_bind, read_identifier_quoted part hbehind,
    Option.bind_some]
  exact read_parts hend hhead

end Uniorm.Ddl
