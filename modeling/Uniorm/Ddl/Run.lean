import Uniorm.Ddl.Follow
import Uniorm.Ddl.Script

/-! # Running a script

A script goes on statement by statement: `schemaFrom` is what is left to say
when the statements so far have said `content`, and each statement moves it to
the text behind the statement. Warnings have no part in it.
-/
namespace Uniorm.Ddl

open Foundation Foundation.Scan Sql Builder Schema

variable [Dangling]

section Consumes
variable {text rest : Text}

omit [Dangling] in
theorem settled_of_skipBlanks (h : skipBlanks.read text = some ((), rest)) : Settled rest := by
  induction hn : text.length using Nat.strongRecOn generalizing text with
  | ind n ih =>
    rw [read_skipBlanks, read_skipBlank] at h
    have hrec : ∀ text', text'.length < text.length →
        (loop skipBlank ()).read text' = some ((), rest) → Settled rest :=
      fun text' hlt hread => ih _ (hn ▸ hlt) hread rfl
    have hless := skipBlank_consumes () text ()
    rw [read_skipBlank] at hless
    split_ifs at h hless with hspace hline hblock
    · exact hrec _ (hless _ rfl) h
    · exact hrec _ (hless _ rfl) h
    · obtain ⟨r, hr, h⟩ := Option.bind_eq_some_iff.mp h
      obtain ⟨q, hq, rfl⟩ := Option.map_eq_some_iff.mp hr
      refine hrec _ (hless _ ?_) h
      rw [hq]
      rfl
    · obtain ⟨-, rfl⟩ := Prod.mk.inj (Option.some.inj h)
      exact ⟨by simpa using hspace, by simpa using hline, by simpa using hblock⟩

variable (h : Settled text) (hne : text ≠ [])
include h hne

theorem Settled.here_consumes {found : Text} (hr : here.read text = some (found, rest)) :
    rest.length < text.length := by
  simp only [here, read_bind, read_peek, h.read_skipBlanks, Option.bind_some, read_ite, if_neg hne,
    read_advance, read_pure, read_taken] at hr
  split_ifs at hr with hword hquote
  · obtain ⟨-, rfl⟩ := Prod.mk.inj (Option.some.inj hr)
    refine length_lt_of_drop ?_ hne
    obtain ⟨c, cs, rfl⟩ := List.exists_cons_of_ne_nil hne
    rw [wordOf, if_pos hword, List.takeWhile_cons_of_pos (identChar_of_identStart hword)]
    exact Nat.succ_pos _
  · obtain ⟨q, hq, hr⟩ := Option.map_eq_some_iff.mp hr
    obtain ⟨-, rfl⟩ := Prod.mk.inj hr
    exact skipQuoted_consumes hne hq
  · obtain ⟨-, rfl⟩ := Prod.mk.inj (Option.some.inj hr)
    exact length_lt_of_drop Nat.one_pos hne

theorem Settled.readOther_consumes {command : Command}
    (hr : readOther.read text = some (command, rest)) : rest.length < text.length := by
  simp only [readOther, read_bind] at hr
  obtain ⟨q, hq, hr⟩ := Option.bind_eq_some_iff.mp hr
  obtain ⟨q', hq', hr⟩ := Option.bind_eq_some_iff.mp hr
  obtain ⟨-, rfl⟩ := Prod.mk.inj (Option.some.inj hr)
  exact Nat.lt_of_le_of_lt (read_length_le hq') (h.here_consumes hne hq)

end Consumes

omit [Dangling] in
theorem word_create : Word "create".toList := ⟨rfl, rfl⟩

omit [Dangling] in
theorem word_alter : Word "alter".toList := ⟨rfl, rfl⟩

omit [Dangling] in
theorem word_use : Word "use".toList := ⟨rfl, rfl⟩

omit [Dangling] in
/-- Go on one way where a word stands next, and another where it does not. -/
theorem Settled.read_branch {α : Type} {text word : Text} (h : Settled text) (hword : Word word)
    (x y : Reading α) : (eatKeyword word >>= fun there => if there then x else y).read text =
      if foldLower (wordOf text) = foldLower word then x.read (text.drop word.length)
      else y.read text := by
  rw [read_bind, h.read_eatKeyword hword]
  split_ifs <;> rfl

/-- The first word decides what is read. -/
theorem Settled.read_readStatement {text : Text} (h : Settled text)
    (tables : List Text → Option Text) : (readStatement tables).read text =
      if text.head? = some ';' then some (.nothing, text.drop 1)
      else if foldLower (wordOf text) = foldLower "create".toList then
        readCreate.read (text.drop "create".toList.length)
      else if foldLower (wordOf text) = foldLower "alter".toList then
        (readAlter tables).read (text.drop "alter".toList.length)
      else if foldLower (wordOf text) = foldLower "use".toList then
        readUse.read (text.drop "use".toList.length)
      else readOther.read text := by
  rw [← h.read_branch word_use, ← h.read_branch word_alter, ← h.read_branch word_create,
    readStatement, read_bind, h.read_eat]
  split_ifs <;> rfl

theorem Settled.readStatement_consumes {text rest : Text} (h : Settled text) (hne : text ≠ [])
    {tables : List Text → Option Text} {command : Command}
    (hr : (readStatement tables).read text = some (command, rest)) :
    rest.length < text.length := by
  have hdrop : ∀ word : Text, 0 < word.length → ∀ x : Reading Command,
      x.read (text.drop word.length) = some (command, rest) → rest.length < text.length :=
    fun word hword x hx => Nat.lt_of_le_of_lt (read_length_le hx) (length_lt_of_drop hword hne)
  rw [h.read_readStatement] at hr
  split_ifs at hr
  · obtain ⟨-, rfl⟩ := Prod.mk.inj (Option.some.inj hr)
    exact length_lt_of_drop Nat.one_pos hne
  · exact hdrop "create".toList (Nat.succ_pos _) _ hr
  · exact hdrop "alter".toList (Nat.succ_pos _) _ hr
  · exact hdrop "use".toList (Nat.succ_pos _) _ hr
  · exact h.readOther_consumes hne hr

/-- One round of the script, with what stands behind its blanks. -/
theorem read_scriptStep (progress : Progress) (text : Text) :
    (scriptStep progress).read text = (skipBlanks.read text).bind fun r =>
      if r.2 = [] then some (.inr progress, [])
      else ((readStatement progress.content.spelling).read r.2).map fun q =>
        (.inl (progress.apply q.1), q.2) := by
  rw [scriptStep, exhausted]
  simp only [read_bind, Option.bind_assoc]
  refine Option.bind_congr fun r _ => ?_
  rcases r with ⟨u, rest⟩
  cases rest with
  | nil => rfl
  | cons c cs =>
    rw [read_peek, Option.bind_some, read_pure, Option.bind_some, if_neg (List.cons_ne_nil c cs)]
    simp only [List.isEmpty_cons, Bool.false_eq_true, if_false, read_bind, read_pure,
      Option.map_eq_bind, Function.comp_def]

theorem scriptStep_consumes (progress : Progress) : (scriptStep progress).Consumes := by
  intro text s rest hr
  rw [read_scriptStep] at hr
  obtain ⟨⟨u, text'⟩, hskip, hr⟩ := Option.bind_eq_some_iff.mp hr
  split_ifs at hr with hend
  · cases hr
  · obtain ⟨q, hq, hr⟩ := Option.map_eq_some_iff.mp hr
    obtain ⟨-, rfl⟩ := Prod.mk.inj hr
    exact Nat.lt_of_lt_of_le ((settled_of_skipBlanks hskip).readStatement_consumes hend hq)
      (read_length_le hskip)

/-- What the script says once it is read to its end. -/
def Content.finish (content : Content) : DdlSnapshot :=
  resolvePendingKeys content.out content.pending

/-- What the rest of the script makes of what was said so far; nothing where it fails. -/
def schemaFrom (content : Content) (text : Text) : Option DdlSnapshot :=
  ((parseScript ⟨content, {}⟩).read text).map fun r => r.1.content.finish

def schemaOf (script : Text) : Option DdlSnapshot :=
  match parseDdl script with
  | .ok (out, _) => some out
  | .error _ => none

theorem schemaOf_eq (script : Text) : schemaOf script = schemaFrom {} script := by
  rw [schemaOf, schemaFrom, parseDdl]
  change _ = (forgetLines ((parseScript {}).run ⟨script, 1⟩)).map _
  cases (parseScript {}).run ⟨script, 1⟩ <;> rfl

/-- What the script has said up to here. -/
def Says (s : Text) (content : Content) : Prop := ∀ r, schemaOf (s ++ r) = schemaFrom content r

/-- The warnings so far have no part in what is read. -/
theorem parseScript_alike (progress progress' : Progress) (h : progress.content = progress'.content)
    (text : Text) : Alike (fun p p' => p.content = p'.content)
      ((parseScript progress).read text) ((parseScript progress').read text) := by
  refine loop_alike (fun (p p' : Progress) text (hp : p.content = p'.content) => ?_) h text
  rw [read_scriptStep, read_scriptStep]
  cases skipBlanks.read text with
  | none => trivial
  | some r =>
    rw [Option.bind_some, Option.bind_some, hp]
    split_ifs with hend
    · exact ⟨rfl, .inr hp⟩
    · cases (readStatement p'.content.spelling).read r.2 with
      | none => trivial
      | some q =>
        refine ⟨rfl, .inl ?_⟩
        change p.content.apply q.1 = p'.content.apply q.1
        rw [hp]

theorem schemaFrom_progress (progress : Progress) (text : Text) :
    ((parseScript progress).read text).map (fun r => r.1.content.finish) =
      schemaFrom progress.content text := by
  have halike := parseScript_alike progress ⟨progress.content, {}⟩ rfl text
  rw [schemaFrom]
  cases hread : (parseScript progress).read text with
  | none =>
    cases hread' : (parseScript ⟨progress.content, {}⟩).read text with
    | none => rfl
    | some r' => simp [hread, hread', Alike] at halike
  | some r =>
    cases hread' : (parseScript ⟨progress.content, {}⟩).read text with
    | none => simp [hread, hread', Alike] at halike
    | some r' =>
      rw [hread, hread'] at halike
      rw [Option.map_some, Option.map_some, halike.2]

theorem schemaFrom_eq (content : Content) (text : Text) : schemaFrom content text =
    (skipBlanks.read text).bind fun r =>
      if r.2 = [] then some content.finish
      else ((readStatement content.spelling).read r.2).bind fun q =>
        schemaFrom (content.apply q.1) q.2 := by
  rw [schemaFrom, parseScript, read_loop scriptStep_consumes, read_scriptStep]
  cases skipBlanks.read text with
  | none => rfl
  | some r =>
    rw [Option.bind_some, Option.bind_some]
    split_ifs with hend
    · rfl
    · cases (readStatement content.spelling).read r.2 with
      | none => rfl
      | some q => exact schemaFrom_progress _ q.2

theorem schemaFrom_nil (content : Content) : schemaFrom content [] = some content.finish := by
  rw [schemaFrom_eq, settled_nil.read_skipBlanks]
  rfl

inductive Commands : Content → Text → List Command → Prop
  | done {content : Content} {text : Text} (h : skipBlanks.read text = some ((), [])) :
      Commands content text []
  | next {content : Content} {text s rest : Text} {command : Command} {commands : List Command}
      (hskip : skipBlanks.read text = some ((), s)) (hne : s ≠ [])
      (hread : (readStatement content.spelling).read s = some (command, rest))
      (h : Commands (content.apply command) rest commands) : Commands content text (command :: commands)

theorem Commands.unique {content : Content} {text : Text} {commands commands' : List Command}
    (h : Commands content text commands) (h' : Commands content text commands') :
    commands = commands' := by
  induction h generalizing commands' with
  | done hskip =>
    cases h' with
    | done => rfl
    | next hskip' hne =>
      rw [hskip] at hskip'
      exact absurd (Prod.mk.inj (Option.some.inj hskip')).2.symm hne
  | next hskip hne hread _ ih =>
    cases h' with
    | done hskip' =>
      rw [hskip] at hskip'
      exact absurd (Prod.mk.inj (Option.some.inj hskip')).2 hne
    | next hskip' _ hread' hrest =>
      rw [hskip] at hskip'
      obtain rfl := (Prod.mk.inj (Option.some.inj hskip')).2
      rw [hread] at hread'
      obtain ⟨rfl, rfl⟩ := Prod.mk.inj (Option.some.inj hread')
      rw [ih hrest]

def Content.run (content : Content) (commands : List Command) : Content := commands.foldl apply content

theorem schemaFrom_eq_some_iff {content : Content} {text : Text} {out : DdlSnapshot} :
    schemaFrom content text = some out ↔
      ∃ commands, Commands content text commands ∧ (content.run commands).finish = out := by
  constructor
  · intro h
    induction hn : text.length using Nat.strongRecOn generalizing content text with
    | ind n ih =>
      rw [schemaFrom_eq] at h
      obtain ⟨r, hskip, h⟩ := Option.bind_eq_some_iff.mp h
      by_cases hend : r.2 = []
      · rw [if_pos hend] at h
        obtain rfl := Option.some.inj h
        exact ⟨[], .done (hend ▸ hskip), rfl⟩
      · rw [if_neg hend] at h
        obtain ⟨q, hread, h⟩ := Option.bind_eq_some_iff.mp h
        have hlt : q.2.length < n := by
          have hless := (settled_of_skipBlanks hskip).readStatement_consumes hend hread
          have hle : r.2.length ≤ text.length := read_length_le hskip
          omega
        obtain ⟨commands, hcommands, rfl⟩ := ih q.2.length hlt h rfl
        exact ⟨q.1 :: commands, .next hskip hend hread hcommands, rfl⟩
  · rintro ⟨commands, hcommands, rfl⟩
    induction hcommands with
    | done hskip =>
      rw [schemaFrom_eq, hskip]
      rfl
    | next hskip hne hread _ ih =>
      rw [schemaFrom_eq, hskip, Option.bind_some, if_neg hne, hread, Option.bind_some, ih]
      rfl

/-- What two scripts come to that have said related things so far. -/
inductive Related (R : Content → Content → Prop) : Option DdlSnapshot → Option DdlSnapshot → Prop
  | fails : Related R none none
  | ends {content content' : Content} (h : R content content') :
      Related R (some content.finish) (some content'.finish)

/-- A relation that knows the tables by the same names and is kept by every command is kept to the
end of the script. -/
theorem related_schemaFrom {R : Content → Content → Prop}
    (hspelling : ∀ {content content'}, R content content' → content'.spelling = content.spelling)
    (happly : ∀ {content content'}, R content content' → ∀ command,
      R (content.apply command) (content'.apply command))
    {content content' : Content} (h : R content content') (text : Text) :
    Related R (schemaFrom content text) (schemaFrom content' text) := by
  induction hn : text.length using Nat.strongRecOn generalizing content content' text with
  | ind n ih =>
    rw [schemaFrom_eq, schemaFrom_eq, hspelling h]
    cases hskip : skipBlanks.read text with
    | none => exact .fails
    | some r =>
      rw [Option.bind_some, Option.bind_some]
      by_cases hend : r.2 = []
      · rw [if_pos hend, if_pos hend]
        exact .ends h
      · rw [if_neg hend, if_neg hend]
        cases hread : (readStatement content.spelling).read r.2 with
        | none => exact .fails
        | some q =>
          refine ih _ ?_ (happly h q.1) q.2 rfl
          have hless := (settled_of_skipBlanks hskip).readStatement_consumes hend hread
          have hle : r.2.length ≤ text.length := read_length_le hskip
          omega

end Uniorm.Ddl
