import Uniorm.Ddl.Run
import Uniorm.Ddl.Value

/-! # Which reader an item of a table is given to

KEY, INDEX and UNIQUE begin a key and name a column. The two are told apart by a
look ahead over at most two names for a parenthesis, while both readers take
names in front of one: a key that says NULLS NOT DISTINCT has three, and a
column has its type.
-/
namespace Uniorm.Ddl

open Foundation Foundation.Scan Sql Builder Schema

section Read
variable [Dangling]

def Stands (word : String) (text rest : Text) : Prop :=
  (eatKeyword word.toList).read text = some (true, rest)

def Opens (text : Text) : Prop := ∃ rest, skipBlanks.read text = some ((), '(' :: rest)

inductive OpensBehind : ℕ → Text → Prop
  | here {text : Text} (h : Opens text) : OpensBehind 0 text
  | name {n : ℕ} {text rest : Text} (h : eatOptionalName.read text = some (true, rest))
      (hmore : OpensBehind n rest) : OpensBehind (n + 1) text

inductive NoListWithin : ℕ → Text → Prop
  | none (text : Text) : NoListWithin 0 text
  | other {n : ℕ} {text rest left : Text} (h : skipBlanks.read text = some ((), rest))
      (hhead : rest.head? ≠ some '(') (hname : eatOptionalName.read rest = some (false, left)) :
      NoListWithin (n + 1) text
  | name {n : ℕ} {text rest left : Text} (h : skipBlanks.read text = some ((), rest))
      (hhead : rest.head? ≠ some '(') (hname : eatOptionalName.read rest = some (true, left))
      (hmore : NoListWithin n left) : NoListWithin (n + 1) text

omit [Dangling] in
theorem read_peekIs_of_skip {text rest : Text} (h : skipBlanks.read text = some ((), rest)) (ch : Char) :
    (peekIs ch).read text = some (rest.head? == some ch, rest) := by
  rw [peekIs, read_bind, h]
  rfl

theorem read_opensListWithin_list {text : Text} (h : Opens text) (n : ℕ) :
    ∃ rest, (opensListWithin (n + 1)).read text = some (true, rest) := by
  obtain ⟨rest, hskip⟩ := h
  refine ⟨'(' :: rest, ?_⟩
  rw [opensListWithin, read_bind, read_peekIs_of_skip hskip]
  rfl

/-- A round that finds no parenthesis. -/
theorem read_opensListWithin_other {text rest left : Text} {named : Bool}
    (h : skipBlanks.read text = some ((), rest)) (hhead : rest.head? ≠ some '(')
    (hname : eatOptionalName.read rest = some (named, left)) (n : ℕ) :
    (opensListWithin (n + 1)).read text =
      if named then (opensListWithin n).read left else some (false, left) := by
  have hopens : (rest.head? == some '(') = false := beq_eq_false_iff_ne.mpr hhead
  rw [opensListWithin, read_bind, read_peekIs_of_skip h, hopens, Option.bind_some,
    if_neg Bool.false_ne_true, read_bind, hname, Option.bind_some]
  cases named <;> rfl

theorem skipsFirst_eatOptionalName : SkipsFirst eatOptionalName := skipsFirst_skipBlanks.bind _

/-- Where a name stands, no parenthesis does. -/
theorem skip_of_name {text left : Text} (h : eatOptionalName.read text = some (true, left)) :
    ∃ rest, skipBlanks.read text = some ((), rest) ∧ rest.head? ≠ some '(' ∧
      eatOptionalName.read rest = some (true, left) := by
  have hread := h
  rw [eatOptionalName, read_bind] at h
  obtain ⟨r, hskip, h⟩ := Option.bind_eq_some_iff.mp h
  refine ⟨r.2, hskip, ?_, ?_⟩
  · intro hhead
    rw [read_bind, read_peek, Option.bind_some, hhead] at h
    cases h
  · rw [← hread]
    exact (skipsFirst_eatOptionalName text r.2 hskip (settled_of_skipBlanks hskip)).symm

theorem OpensBehind.read_true {k n : ℕ} {text : Text} (h : OpensBehind k text) (hlt : k < n) :
    ∃ rest, (opensListWithin n).read text = some (true, rest) := by
  induction h generalizing n with
  | here hopens =>
    obtain ⟨n, rfl⟩ := Nat.exists_eq_add_one.mpr hlt
    exact read_opensListWithin_list hopens n
  | name hname hmore ih =>
    obtain ⟨n, rfl⟩ := Nat.exists_eq_add_one.mpr (Nat.zero_lt_of_lt hlt)
    obtain ⟨rest, hskip, hhead, hname'⟩ := skip_of_name hname
    obtain ⟨left, hleft⟩ := ih (Nat.lt_of_succ_lt_succ hlt)
    exact ⟨left, by rw [read_opensListWithin_other hskip hhead hname', if_pos rfl, hleft]⟩

theorem OpensBehind.noListWithin {k n : ℕ} {text : Text} (h : OpensBehind k text) (hle : n ≤ k) :
    NoListWithin n text := by
  induction h generalizing n with
  | here hopens =>
    obtain rfl := Nat.le_zero.mp hle
    exact .none _
  | name hname hmore ih =>
    cases n with
    | zero => exact .none _
    | succ n =>
      obtain ⟨rest, hskip, hhead, hname'⟩ := skip_of_name hname
      exact .name hskip hhead hname' (ih (Nat.le_of_succ_le_succ hle))

/-- The look ahead finds no list where there is none within its names. -/
theorem noListWithin_iff (n : ℕ) (text : Text) : NoListWithin n text ↔
    ∃ rest, (opensListWithin n).read text = some (false, rest) := by
  constructor
  · intro h
    induction h with
    | none text => exact ⟨text, rfl⟩
    | other hskip hhead hname =>
      exact ⟨_, by rw [read_opensListWithin_other hskip hhead hname, if_neg Bool.false_ne_true]⟩
    | name hskip hhead hname hmore ih =>
      obtain ⟨rest, hrest⟩ := ih
      exact ⟨rest, by rw [read_opensListWithin_other hskip hhead hname, if_pos rfl, hrest]⟩
  · rintro ⟨last, h⟩
    induction n generalizing text with
    | zero => exact .none text
    | succ n ih =>
      have hread := h
      rw [opensListWithin, read_bind] at h
      obtain ⟨r, hpeek, h⟩ := Option.bind_eq_some_iff.mp h
      have hskips := hpeek
      rw [peekIs, read_bind] at hskips
      obtain ⟨q, hskip, hpure⟩ := Option.bind_eq_some_iff.mp hskips
      rw [read_peekIs_of_skip hskip] at hpeek
      obtain rfl := Option.some.inj hpeek
      by_cases hhead : q.2.head? = some '('
      · rw [beq_iff_eq.mpr hhead] at h
        cases h
      · rw [beq_eq_false_iff_ne.mpr hhead, if_neg Bool.false_ne_true, read_bind] at h
        obtain ⟨o, hname, h⟩ := Option.bind_eq_some_iff.mp h
        obtain ⟨named, left⟩ := o
        cases named with
        | false => exact .other hskip hhead hname
        | true => exact .name hskip hhead hname (ih left h)

def keyWords : List String := ["unique", "key", "index"]

omit [Dangling] in
theorem word_probes : ∀ word ∈ constraintLeads ++ keyWords.map String.toList,
    Word word ∧ foldLower word = word := by
  have hall : ∀ word ∈ constraintLeads ++ keyWords.map String.toList,
      (word.head?.any identStart && word.all identChar) = true ∧ foldLower word = word := by
    decide
  intro word hword
  obtain ⟨hchars, hfold⟩ := hall word hword
  obtain ⟨hstart, hrest⟩ := Bool.and_eq_true_iff.mp hchars
  exact ⟨⟨hstart, hrest⟩, hfold⟩

omit [Dangling] in
theorem word_keyWord {lead : String} (h : lead ∈ keyWords) :
    Word lead.toList ∧ foldLower lead.toList = lead.toList :=
  word_probes _ (List.mem_append_right _ (List.mem_map_of_mem h))

omit [Dangling] in
theorem keyWords_apart : ∀ lead ∈ keyWords, lead.toList ∉ constraintLeads := by decide

omit [Dangling] in
theorem Stands.skip {word : String} {text rest : Text} (hword : Word word.toList)
    (h : Stands word text rest) : ∃ s, skipBlanks.read text = some ((), s) ∧ Settled s ∧
      foldLower (wordOf s) = foldLower word.toList ∧ s.drop word.toList.length = rest := by
  have hread := h
  rw [Stands, eatKeyword, peekKeyword, read_bind, read_bind] at hread
  obtain ⟨r, hr, hread⟩ := Option.bind_eq_some_iff.mp hread
  obtain ⟨q, hskip, -⟩ := Option.bind_eq_some_iff.mp hr
  have hsettled := settled_of_skipBlanks hskip
  refine ⟨q.2, hskip, hsettled, ?_⟩
  rw [Stands, skipsFirst_eatKeyword word.toList text q.2 hskip hsettled,
    hsettled.read_eatKeyword hword] at h
  by_cases hfold : foldLower (wordOf q.2) = foldLower word.toList
  · rw [if_pos hfold] at h
    exact ⟨hfold, (Prod.mk.inj (Option.some.inj h)).2⟩
  · rw [if_neg hfold] at h
    cases h

omit [Dangling] in
/-- One probe decides where the others find nothing. -/
theorem read_anyOf_one {s : Text} {before after : List (Reading Bool)} {probe : Reading Bool}
    {answer : Option (Bool × Text)} (hbefore : ∀ p ∈ before, p.read s = some (false, s))
    (hprobe : probe.read s = answer.map fun r => (r.1, s))
    (hafter : ∀ p ∈ after, p.read s = some (false, s)) :
    (anyOf (before ++ probe :: after)).read s = answer.map fun r => (r.1, s) := by
  have hpass : ∀ ps more : List (Reading Bool), (∀ p ∈ ps, p.read s = some (false, s)) →
      (anyOf (ps ++ more)).read s = (anyOf more).read s := by
    intro ps more hps
    induction ps with
    | nil => rfl
    | cons p ps ih =>
      obtain ⟨hp, hmore⟩ := List.forall_mem_cons.mp hps
      rw [List.cons_append, anyOf, read_bind, hp]
      exact ih hmore
  rw [hpass before _ hbefore, anyOf, read_bind, hprobe]
  cases answer with
  | none => rfl
  | some r =>
    obtain ⟨found, left⟩ := r
    cases found with
    | true => rfl
    | false =>
      have hnone := hpass after [] hafter
      rw [List.append_nil] at hnone
      exact hnone

section Probes
variable {s : Text} (hsettled : Settled s)
include hsettled

omit [Dangling] in
theorem Settled.read_peekKeyword {word : Text} (hword : Word word) :
    (peekKeyword word).read s = some (foldLower (wordOf s) == foldLower word, s) := by
  rw [peekKeyword, read_bind, hsettled.read_skipBlanks, Option.bind_some, read_bind, read_peek,
    Option.bind_some, startsKeyword_eq hword]
  rfl

theorem Settled.read_opensAKeyList_other {word : Text} (hword : Word word)
    (h : foldLower (wordOf s) ≠ foldLower word) : (opensAKeyList word).read s = some (false, s) := by
  rw [opensAKeyList, read_ahead, read_bind, hsettled.read_eatKeyword hword, if_neg h]
  rfl

theorem Settled.read_opensAKeyList_this {word : Text} (hword : Word word)
    (h : foldLower (wordOf s) = foldLower word) : (opensAKeyList word).read s =
      ((opensListWithin 3).read (s.drop word.length)).map fun r => (r.1, s) := by
  rw [opensAKeyList, read_ahead, read_bind, hsettled.read_eatKeyword hword, if_pos h]
  rfl

end Probes

/-- At such a word the look ahead behind it decides. -/
theorem Stands.read_constraintLead {lead : String} {text rest : Text} (hlead : lead ∈ keyWords)
    (h : Stands lead text rest) : ∃ s, constraintLead.read text =
      ((opensListWithin 3).read rest).map fun r => (r.1, s) := by
  obtain ⟨hword, hlower⟩ := word_keyWord hlead
  obtain ⟨s, hskip, hsettled, hfold, rfl⟩ := h.skip hword
  refine ⟨s, ?_⟩
  have hfirst : SkipsFirst constraintLead := (skipsFirst_skipBlanks.bind _).bind _
  have hkeywords : ∀ p ∈ constraintLeads.map peekKeyword, p.read s = some (false, s) := by
    refine List.forall_mem_map.mpr fun word hmem => ?_
    obtain ⟨hword', hlower'⟩ := word_probes word (List.mem_append_left _ hmem)
    have hne : foldLower (wordOf s) ≠ foldLower word := by
      rw [hfold, hlower, hlower']
      rintro rfl
      exact keyWords_apart lead hlead hmem
    rw [hsettled.read_peekKeyword hword', beq_eq_false_iff_ne.mpr hne]
  have hthis := hsettled.read_opensAKeyList_this hword hfold
  have hother : ∀ word ∈ keyWords, word ≠ lead →
      (opensAKeyList word.toList).read s = some (false, s) := by
    intro word hmem hne
    obtain ⟨hword', hlower'⟩ := word_keyWord hmem
    refine hsettled.read_opensAKeyList_other hword' ?_
    rw [hfold, hlower, hlower']
    exact fun heq => hne (String.toList_injective heq.symm)
  rw [hfirst text s hskip hsettled, constraintLead]
  simp only [keyWords, List.mem_cons, List.not_mem_nil, or_false] at hlead
  rcases hlead with rfl | rfl | rfl
  · refine read_anyOf_one hkeywords hthis ?_
    simp only [List.forall_mem_cons]
    exact ⟨hother "key" (by decide) (by decide), hother "index" (by decide) (by decide),
      fun _ h => absurd h List.not_mem_nil⟩
  · have hsplit : constraintLeads.map peekKeyword ++ [opensAKeyList "unique".toList,
        opensAKeyList "key".toList, opensAKeyList "index".toList] =
          (constraintLeads.map peekKeyword ++ [opensAKeyList "unique".toList]) ++
            opensAKeyList "key".toList :: [opensAKeyList "index".toList] := by
      simp only [List.append_assoc, List.singleton_append]
    rw [hsplit]
    refine read_anyOf_one ?_ hthis ?_
    · refine List.forall_mem_append.mpr ⟨hkeywords, ?_⟩
      exact List.forall_mem_singleton.mpr (hother "unique" (by decide) (by decide))
    · exact List.forall_mem_singleton.mpr (hother "index" (by decide) (by decide))
  · have hsplit : constraintLeads.map peekKeyword ++ [opensAKeyList "unique".toList,
        opensAKeyList "key".toList, opensAKeyList "index".toList] =
          (constraintLeads.map peekKeyword ++ [opensAKeyList "unique".toList,
            opensAKeyList "key".toList]) ++ opensAKeyList "index".toList :: [] := by
      simp only [List.append_assoc, List.cons_append, List.nil_append]
    rw [hsplit]
    refine read_anyOf_one ?_ hthis (fun _ h => absurd h List.not_mem_nil)
    refine List.forall_mem_append.mpr ⟨hkeywords, List.forall_mem_cons.mpr ⟨?_, ?_⟩⟩
    · exact hother "unique" (by decide) (by decide)
    · exact List.forall_mem_singleton.mpr (hother "key" (by decide) (by decide))

inductive Kind : Text → Text → Prop
  | none (text : Text) : Kind text text
  | key {text rest : Text} (h : Stands "key" text rest) : Kind text rest
  | index {text rest : Text} (h : Stands "index" text rest) : Kind text rest

inductive Nulls : Bool → Text → Text → Prop
  | none (text : Text) : Nulls false text text
  | notDistinct {text behindNulls behindNot rest : Text} (hnulls : Stands "nulls" text behindNulls)
      (hnot : Stands "not" behindNulls behindNot) (hdistinct : Stands "distinct" behindNot rest) :
      Nulls true text rest

inductive Named : Text → Text → Prop
  | none (text : Text) : Named text text
  | name {text rest name : Text} (h : identifier.read text = some (name, rest)) : Named text rest

/-- The keys of a table in front of their columns, with or without NULLS NOT DISTINCT. -/
inductive KeyShape : Bool → Text → Prop
  | unique {nulls : Bool} {text behindWord behindKind behindNulls behindName : Text}
      (hword : Stands "unique" text behindWord) (hkind : Kind behindWord behindKind)
      (hnulls : Nulls nulls behindKind behindNulls) (hname : Named behindNulls behindName)
      (hopens : Opens behindName) : KeyShape nulls text
  | index {lead : String} {text behindWord behindName : Text} (hlead : lead = "key" ∨ lead = "index")
      (hword : Stands lead text behindWord) (hname : Named behindWord behindName)
      (hopens : Opens behindName) : KeyShape false text

structure KeyConstraint (table : Text) (nulls : Bool) (text : Text) : Prop where
  shape : KeyShape nulls text
  reads : ∃ r, (readConstraint table).read text = some r

theorem Stands.read_name {word : String} {text rest : Text} (hword : Word word.toList)
    (h : Stands word text rest) : eatOptionalName.read text = some (true, rest) := by
  obtain ⟨s, hskip, hsettled, hfold, rfl⟩ := h.skip hword
  have hof : Word (wordOf s) := word_foldLower.mp (hfold ▸ word_foldLower.mpr hword)
  have hlength : (wordOf s).length = word.toList.length := by
    rw [← foldLower_length, hfold, foldLower_length]
  have hstart : s.head?.any identStart = true := by
    by_contra hnot
    rw [wordOf_of_not (Bool.eq_false_iff.mpr hnot)] at hof
    cases hof.start
  rw [skipsFirst_eatOptionalName text s hskip hsettled, eatOptionalName, read_bind,
    hsettled.read_skipBlanks, Option.bind_some, read_bind, read_peek, Option.bind_some, if_pos hstart,
    read_bind, takeWord, peekWord]
  simp only [read_bind, hsettled.read_skipBlanks, read_peek, read_pure, read_advance, Option.bind_some,
    hlength]

theorem skipsFirst_identifier : SkipsFirst identifier := skipsFirst_skipBlanks.bind _

theorem read_name_of_identifier {text rest name : Text} (h : identifier.read text = some (name, rest)) :
    eatOptionalName.read text = some (true, rest) := by
  have hread := h
  rw [identifier, read_bind] at hread
  obtain ⟨r, hskip, -⟩ := Option.bind_eq_some_iff.mp hread
  obtain ⟨u, s⟩ := r
  have hsettled := settled_of_skipBlanks hskip
  rw [skipsFirst_identifier text s hskip hsettled] at h
  rw [skipsFirst_eatOptionalName text s hskip hsettled, eatOptionalName, read_bind,
    hsettled.read_skipBlanks, Option.bind_some, read_bind, read_peek, Option.bind_some]
  by_cases hstart : s.head?.any identStart = true
  · have hquote : s.head?.any isNameQuote = false := by
      cases s with
      | nil => rfl
      | cons c cs =>
        cases hc : isNameQuote c with
        | false => exact hc
        | true =>
          have hc' : quoteStart c = true := by
            rcases Bool.or_eq_true_iff.mp hc with hc | hc
            · rw [beq_iff_eq.mp hc]
              rfl
            · rw [beq_iff_eq.mp hc]
              rfl
          have hnot := identStart_of_quoteStart hc'
          rw [show identStart c = true from hstart] at hnot
          cases hnot
    have hne : s ≠ [] := by
      rintro rfl
      cases hstart
    simp only [identifier, read_bind, hsettled.read_skipBlanks, read_peek, Option.bind_some, if_neg hne,
      hquote, Bool.false_eq_true, if_false, if_pos hstart, read_advance, read_pure] at h
    obtain ⟨-, rfl⟩ := Prod.mk.inj (Option.some.inj h)
    rw [if_pos hstart, read_bind, takeWord, peekWord]
    simp only [read_bind, hsettled.read_skipBlanks, read_peek, read_pure, read_advance, Option.bind_some]
  · rw [if_neg hstart]
    by_cases hquote : s.head?.any isNameQuote = true
    · rw [if_pos hquote, read_bind, h]
      rfl
    · have hne : identifier.read s = none := by
        simp only [identifier, read_bind, hsettled.read_skipBlanks, read_peek, Option.bind_some,
          if_neg hquote,
          if_neg hstart, read_ite, read_fail, read_expected, ite_self]
      rw [hne] at h
      cases h

theorem opensBehind_named {text rest : Text} (h : Named text rest) (hopens : Opens rest) :
    ∃ k ≤ 1, OpensBehind k text := by
  cases h with
  | none => exact ⟨0, Nat.zero_le 1, .here hopens⟩
  | name hname => exact ⟨1, le_rfl, .name (read_name_of_identifier hname) (.here hopens)⟩

theorem Kind.opensBehind {k : ℕ} {text rest : Text} (h : Kind text rest) (hopens : OpensBehind k rest) :
    ∃ n, OpensBehind n text ∧ k ≤ n ∧ n ≤ k + 1 := by
  have hkey : "key" ∈ keyWords := by decide
  have hindex : "index" ∈ keyWords := by decide
  cases h with
  | none => exact ⟨k, hopens, le_rfl, Nat.le_succ k⟩
  | key hword => exact ⟨k + 1, .name (hword.read_name (word_keyWord hkey).1) hopens, Nat.le_succ k, le_rfl⟩
  | index hword =>
    exact ⟨k + 1, .name (hword.read_name (word_keyWord hindex).1) hopens, Nat.le_succ k, le_rfl⟩

theorem Nulls.opensBehind {nulls : Bool} {k : ℕ} {text rest : Text} (h : Nulls nulls text rest)
    (hopens : OpensBehind k rest) : OpensBehind (k + if nulls then 3 else 0) text := by
  cases h with
  | none => exact hopens
  | notDistinct hnulls hnot hdistinct =>
    have hthree := hdistinct.read_name ⟨rfl, rfl⟩
    have htwo := hnot.read_name ⟨rfl, rfl⟩
    exact .name (hnulls.read_name ⟨rfl, rfl⟩) (.name htwo (.name hthree hopens))

/-- A key that does not say NULLS NOT DISTINCT has at most two names in front of its columns, and one
that does has at least three. -/
theorem KeyShape.opensBehind {nulls : Bool} {text : Text} (h : KeyShape nulls text) :
    ∃ lead ∈ keyWords, ∃ rest, Stands lead text rest ∧
      ∃ k, OpensBehind k rest ∧ (nulls = false → k < 3) ∧ (nulls = true → 3 ≤ k) := by
  cases h with
  | unique hword hkind hnulls hname hopens =>
    obtain ⟨k, hk, hbehind⟩ := opensBehind_named hname hopens
    obtain ⟨n, hn, hlow, hhigh⟩ := hkind.opensBehind (hnulls.opensBehind hbehind)
    refine ⟨"unique", by decide, _, hword, n, hn, ?_, ?_⟩
    · rintro rfl
      rw [if_neg Bool.false_ne_true] at hhigh
      omega
    · rintro rfl
      rw [if_pos rfl] at hlow
      omega
  | @index lead _ _ _ hlead hword hname hopens =>
    obtain ⟨k, hk, hbehind⟩ := opensBehind_named hname hopens
    have hmem : lead ∈ keyWords := by
      rcases hlead with rfl | rfl
      · decide
      · decide
    exact ⟨lead, hmem, _, hword, k, hbehind, fun _ => by omega, fun h => absurd h Bool.false_ne_true⟩

def Answers (answer : Bool) (text : Text) : Prop :=
  ∃ rest, constraintLead.read text = some (answer, rest)

theorem KeyShape.answers {nulls : Bool} {text : Text} (h : KeyShape nulls text) :
    Answers (!nulls) text := by
  obtain ⟨lead, hlead, rest, hword, k, hbehind, hfew, hmany⟩ := h.opensBehind
  obtain ⟨s, hread⟩ := hword.read_constraintLead hlead
  refine ⟨s, ?_⟩
  rw [hread]
  cases nulls with
  | false =>
    obtain ⟨left, hleft⟩ := hbehind.read_true (hfew rfl)
    rw [hleft]
    rfl
  | true =>
    obtain ⟨left, hleft⟩ := (noListWithin_iff 3 rest).mp (hbehind.noListWithin (hmany rfl))
    rw [hleft]
    rfl

theorem answers_unique {a b : Bool} {text : Text} (h : Answers a text) (h' : Answers b text) : a = b := by
  obtain ⟨rest, hread⟩ := h
  obtain ⟨rest', hread'⟩ := h'
  rw [hread] at hread'
  exact (Prod.mk.inj (Option.some.inj hread')).1

inductive DigitList : Text → Prop
  | close {text rest : Text} (h : (eat ')').read text = some (true, rest)) : DigitList text
  | last {text rest item behind left : Text} (h : (eat ')').read text = some (false, rest))
      (hvalue : value.read rest = some (item, behind)) (hdigits : allDigits item = true)
      (hcomma : (eat ',').read behind = some (false, left)) : DigitList text
  | more {text rest item behind left : Text} (h : (eat ')').read text = some (false, rest))
      (hvalue : value.read rest = some (item, behind)) (hdigits : allDigits item = true)
      (hcomma : (eat ',').read behind = some (true, left)) (hmore : DigitList left) : DigitList text

/-- A type without arguments, or with arguments that are numbers. -/
def DigitType (text : Text) : Prop :=
  ∀ parts rest, qualified.read text = some (parts, rest) →
    (∀ left, (eat '(').read rest = some (true, left) → DigitList left) ∧
      ∀ left, (eat '(').read rest = some (false, left) →
        ∀ phrase behind, (readPhrase (foldUpper (lastPart parts))).read left = some (phrase, behind) →
          ∀ arguments, (eat '(').read behind = some (true, arguments) → DigitList arguments

/-- A column of one of these names, unquoted, that its reader reads to its end. -/
structure KeywordColumn (text rest : Text) : Prop where
  named : ∃ lead ∈ keyWords, Stands lead text rest
  digits : DigitType rest
  reads : ∃ r, readColumnDef.read text = some r

/-- An item is given to the reader that reads it. -/
structure Classified (table text : Text) : Prop where
  keys : ∀ nulls, KeyConstraint table nulls text → Answers true text
  columns : ∀ rest, KeywordColumn text rest → Answers false text

/-- No key says NULLS NOT DISTINCT, and no parenthesis opens behind the first two names that follow the
name of a column. -/
structure ToldApart (table text : Text) : Prop where
  keys : ¬ KeyConstraint table true text
  columns : ∀ rest, KeywordColumn text rest → NoListWithin 3 rest

theorem KeywordColumn.answers_iff {text rest : Text} (h : KeywordColumn text rest) :
    Answers false text ↔ NoListWithin 3 rest := by
  obtain ⟨lead, hlead, hword⟩ := h.named
  obtain ⟨s, hread⟩ := hword.read_constraintLead hlead
  rw [noListWithin_iff, Answers, hread]
  constructor
  · rintro ⟨left, hleft⟩
    obtain ⟨r, hr, heq⟩ := Option.map_eq_some_iff.mp hleft
    obtain ⟨answer, behind⟩ := r
    obtain ⟨rfl, -⟩ := Prod.mk.inj heq
    exact ⟨behind, hr⟩
  · rintro ⟨left, hleft⟩
    rw [hleft]
    exact ⟨s, rfl⟩

theorem classified_iff (table text : Text) : Classified table text ↔ ToldApart table text := by
  constructor
  · intro h
    constructor
    · intro hkey
      cases answers_unique (h.keys true hkey) hkey.shape.answers
    · exact fun rest hcolumn => hcolumn.answers_iff.mp (h.columns rest hcolumn)
  · intro h
    constructor
    · intro nulls hkey
      cases nulls with
      | false => exact hkey.shape.answers
      | true => exact absurd hkey h.keys
    · exact fun rest hcolumn => hcolumn.answers_iff.mpr (h.columns rest hcolumn)

theorem digitType_varchar : DigitType " varchar(8)".toList := by
  have hname : qualified.read " varchar(8)".toList = some (["varchar".toList], "(8)".toList) := rfl
  intro parts rest h
  obtain ⟨-, rfl⟩ := Prod.mk.inj (Option.some.inj (hname.symm.trans h))
  have hopen : (eat '(').read "(8)".toList = some (true, "8)".toList) := rfl
  constructor
  · intro left hleft
    obtain ⟨-, rfl⟩ := Prod.mk.inj (Option.some.inj (hopen.symm.trans hleft))
    exact @DigitList.last _ "8)".toList "8)".toList "8".toList ")".toList ")".toList rfl rfl rfl rfl
  · intro left hleft
    rw [hopen] at hleft
    cases hleft

end Read

section Small
attribute [local instance] Dangling.small

/-- A column with the name of a key and an argument of its type. -/
theorem key_varchar_not_classified : ¬ Classified "t".toList "key varchar(8)".toList := by
  intro h
  have hcolumn : KeywordColumn "key varchar(8)".toList " varchar(8)".toList :=
    ⟨⟨"key", by decide, rfl⟩, digitType_varchar, _, rfl⟩
  have hlist : OpensBehind 1 " varchar(8)".toList := .name rfl (.here ⟨_, rfl⟩)
  obtain ⟨left, hfound⟩ := hlist.read_true (n := 3) (by decide)
  obtain ⟨left', hnone⟩ := (noListWithin_iff 3 _).mp (hcolumn.answers_iff.mp (h.columns _ hcolumn))
  rw [hfound] at hnone
  cases hnone

end Small

end Uniorm.Ddl
