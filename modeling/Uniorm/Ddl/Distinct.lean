import Uniorm.Ddl.Effect

/-! # Distinct tables

A table is looked for by the last part of its name and by one qualifier, which
may be its schema or its catalog. As long as that comparison tells the names of
a script apart, the tables of the script are a store: each name has an entry of
its own, and what is said of a name in full changes that entry and no other.
-/
namespace Uniorm.Ddl

open Foundation Foundation.Scan Sql Builder Schema

/-- A name without its letter case. -/
def folded (parts : List Text) : List Text := parts.map foldLower

/-- The place of a table without its letter case. -/
def key (ref : TableRef) : Text × Text × Text :=
  (foldLower ref.catalog, foldLower ref.schema, foldLower ref.name)

theorem folded_length {p q : List Text} (h : folded p = folded q) : p.length = q.length := by
  have hlength := congrArg List.length h
  rwa [folded, folded, List.length_map, List.length_map] at hlength

theorem foldLower_lastPart (p : List Text) : foldLower (lastPart p) = lastPart (folded p) := by
  rw [lastPart, lastPart, folded, List.getLastD_eq_getLast?, List.getLastD_eq_getLast?, List.getLast?_map]
  cases p.getLast? <;> rfl

theorem folded_dropLast (p : List Text) : folded p.dropLast = (folded p).dropLast :=
  List.map_dropLast

/-- The comparison does not see letter case. -/
theorem names_congr {p q : List Text} (h : folded p = folded q) (ref : TableRef) :
    names p ref = names q ref := by
  simp only [names, foldLower_lastPart, folded_dropLast, h, folded_length h]

def TableName (p : List Text) : Prop := 1 ≤ p.length ∧ p.length ≤ 3

theorem TableName.cases {p : List Text} (h : TableName p) :
    (∃ name, p = [name]) ∨ (∃ schema name, p = [schema, name]) ∨
      ∃ catalog schema name, p = [catalog, schema, name] := by
  obtain ⟨hpos, hle⟩ := h
  match p, hpos, hle with
  | [name], _, _ => exact .inl ⟨name, rfl⟩
  | [schema, name], _, _ => exact .inr (.inl ⟨schema, name, rfl⟩)
  | [catalog, schema, name], _, _ => exact .inr (.inr ⟨catalog, schema, name, rfl⟩)

theorem names_self {p : List Text} (h : TableName p) : names p (freshTable p).ref = true := by
  rcases h.cases with ⟨name, rfl⟩ | ⟨schema, name, rfl⟩ | ⟨catalog, schema, name, rfl⟩ <;>
    simp [names, freshTable, lastPart]

/-- Names of as many parts have one place exactly when they are the same name. -/
theorem key_fresh_iff {p q : List Text} (hp : TableName p) (hlength : p.length = q.length) :
    key (freshTable p).ref = key (freshTable q).ref ↔ folded p = folded q := by
  have hq : TableName q := ⟨hlength ▸ hp.1, hlength ▸ hp.2⟩
  rcases hp.cases with ⟨name, rfl⟩ | ⟨schema, name, rfl⟩ | ⟨catalog, schema, name, rfl⟩ <;>
    rcases hq.cases with ⟨name', rfl⟩ | ⟨schema', name', rfl⟩ | ⟨catalog', schema', name', rfl⟩ <;>
    simp_all [key, freshTable, folded]

theorem key_congr {p q : List Text} (h : folded p = folded q) :
    key (freshTable p).ref = key (freshTable q).ref := by
  have hlength := folded_length h
  match p, q, hlength with
  | [], [], _ => rfl
  | [_], [_], _ => simp_all [key, freshTable, folded]
  | [_, _], [_, _], _ => simp_all [key, freshTable, folded]
  | [_, _, _], [_, _, _], _ => simp_all [key, freshTable, folded]
  | _ :: _ :: _ :: _ :: _, _ :: _ :: _ :: _ :: _, _ => simp_all [key, freshTable, folded]

/-- The comparison looks at the place only. -/
theorem names_of_key {ref ref' : TableRef} (h : key ref = key ref') (p : List Text) :
    names p ref = names p ref' := by
  simp only [key, Prod.mk.injEq] at h
  obtain ⟨hcatalog, hschema, hname⟩ := h
  have hempty : ∀ {a b : Text}, foldLower a = foldLower b → (a == []) = (b == []) := by
    intro a b hab
    have hlength := congrArg List.length hab
    rw [foldLower_length, foldLower_length] at hlength
    cases a <;> cases b <;> simp_all
  rw [names, names, hname, hschema, hcatalog, hempty hschema, hempty hcatalog]

def Command.creates : Command → Option (List Text)
  | .createTable parts _ => some parts
  | _ => none

def created (commands : List Command) : List (List Text) := commands.filterMap Command.creates

def Command.addresses : Command → Option (List Text × List Edit)
  | .createIndex name parts columns unique =>
    some (parts, [.index ⟨indexName name columns "index".toList, columns, unique⟩])
  | .alter parts items => some (parts, items)
  | _ => none

/-- The comparison takes no new name for a table that was made under another name in front of it. -/
def NamesApart : List (List Text) → List (List Text) → Prop
  | _, [] => True
  | seen, p :: later => ((∃ q ∈ seen, folded q = folded p) ∨
      ∀ q ∈ seen, names p (freshTable q).ref = false) ∧ NamesApart (seen ++ [p]) later

instance NamesApart.decidable : ∀ seen later, Decidable (NamesApart seen later)
  | _, [] => .isTrue trivial
  | seen, p :: later =>
    haveI := decidable (seen ++ [p]) later
    inferInstanceAs (Decidable (_ ∧ _))

theorem namesApart_append {seen later more : List (List Text)} : NamesApart seen (later ++ more) ↔
    NamesApart seen later ∧ NamesApart (seen ++ later) more := by
  induction later generalizing seen with
  | nil => simp [NamesApart]
  | cons p later ih =>
    rw [List.cons_append, NamesApart, NamesApart, ih, and_assoc, List.append_assoc]
    rfl

/-- A name is that of a table there is, or the comparison takes it for none of them. -/
def NeverMistaken (seen : List (List Text)) (p : List Text) : Prop :=
  (∃ q ∈ seen, folded q = folded p) ∨ ∀ q ∈ seen, names p (freshTable q).ref = false

theorem NamesApart.told {seen later : List (List Text)} (h : NamesApart seen later) {p : List Text}
    (hp : p ∈ seen ∨ p ∈ later) : NeverMistaken seen p := by
  induction later generalizing seen with
  | nil => exact .inl ⟨p, hp.resolve_right List.not_mem_nil, rfl⟩
  | cons r later ih =>
    obtain ⟨hfirst, hmore⟩ := h
    by_cases hr : folded r = folded p
    · unfold NeverMistaken
      rw [← hr]
      simpa only [names_congr hr] using hfirst
    · have hin : p ∈ seen ++ [r] ∨ p ∈ later := by
        rcases hp with hp | hp
        · exact .inl (List.mem_append_left _ hp)
        · rcases List.mem_cons.mp hp with rfl | hp
          · exact absurd rfl hr
          · exact .inr hp
      rcases ih hmore hin with ⟨q, hq, hqp⟩ | hnone
      · rcases List.mem_append.mp hq with hq | hq
        · exact .inl ⟨q, hq, hqp⟩
        · exact absurd (List.mem_singleton.mp hq ▸ hqp) hr
      · exact .inr fun q hq => hnone q (List.mem_append_left _ hq)

/-- What the table of a name gets of some commands: what says its name in full, and nothing of what
says another of the known names. -/
inductive Gets (known : List (List Text)) (p : List Text) : List Command → List Edit → Prop
  | done : Gets known p [] []
  | own {command : Command} {commands : List Command} {q : List Text} {items edits : List Edit}
      (h : command.addresses = some (q, items)) (hq : folded q = folded p)
      (hmore : Gets known p commands edits) : Gets known p (command :: commands) (items ++ edits)
  | other {command : Command} {commands : List Command} {edits : List Edit}
      (h : ∀ q items, command.addresses = some (q, items) → folded q ≠ folded p)
      (hmore : Gets known p commands edits) : Gets known p (command :: commands) edits
  | unknown {command : Command} {commands : List Command} {q : List Text} {items edits : List Edit}
      (h : command.addresses = some (q, items)) (hq : ∀ r ∈ known, folded q ≠ folded r)
      (hmore : Gets known p commands edits) : Gets known p (command :: commands) (items ++ edits)

theorem apply_cases (content : Content) (command : Command) :
    (command.creates = none ∧ command.addresses = none ∧
      (content.apply command).out.tables = content.out.tables) ∨
    (∃ p items, command = .createTable p items ∧
      ((findTable content.out.tables p = none ∧ (content.apply command).out.tables =
          content.out.tables ++ [onTable items (freshTable p)]) ∨
        ∃ slot, findTable content.out.tables p = some slot ∧ (content.apply command).out.tables =
          content.out.tables.modify slot fun _ => onTable items (freshTable p))) ∨
    ∃ q items, command.creates = none ∧ command.addresses = some (q, items) ∧
      ((findTable content.out.tables q = none ∧
          (content.apply command).out.tables = content.out.tables) ∨
        ∃ slot, findTable content.out.tables q = some slot ∧
          (content.apply command).out.tables = content.out.tables.modify slot (onTable items)) := by
  cases command with
  | createTable p items =>
    refine .inr (.inl ⟨p, items, rfl, ?_⟩)
    rw [apply_eq_carry rfl, Content.carry]
    cases hfind : findTable content.out.tables p with
    | none => exact .inl ⟨rfl, rfl⟩
    | some slot => exact .inr ⟨slot, rfl, rfl⟩
  | createIndex name parts columns unique =>
    refine .inr (.inr ⟨parts, _, rfl, rfl, ?_⟩)
    rw [apply_eq_carry rfl, Content.carry]
    cases hfind : findTable content.out.tables parts with
    | none => exact .inl ⟨rfl, rfl⟩
    | some slot => exact .inr ⟨slot, rfl, rfl⟩
  | alter parts items =>
    refine .inr (.inr ⟨parts, items, rfl, rfl, ?_⟩)
    rw [apply_eq_carry rfl, Content.carry]
    cases hfind : findTable content.out.tables parts with
    | none => exact .inl ⟨rfl, rfl⟩
    | some slot => exact .inr ⟨slot, rfl, rfl⟩
  | _ => exact .inl ⟨rfl, rfl, rfl⟩

def Content.places (content : Content) : List (Text × Text × Text) :=
  content.out.tables.map fun table => key table.ref

/-- Each name has a table, and it is the first one that the name finds. -/
structure Content.Distinct (seen : List (List Text)) (content : Content) : Prop where
  known : ∀ place ∈ content.places, ∃ q ∈ seen, place = key (freshTable q).ref
  made : ∀ q ∈ seen, ∃ slot : ℕ, content.places[slot]? = some (key (freshTable q).ref)
  first : ∀ q ∈ seen, ∀ slot : ℕ, content.places[slot]? = some (key (freshTable q).ref) →
    findTable content.out.tables q = some slot

section Store
variable {seen : List (List Text)} {content content' : Content} {p q : List Text} {slot : ℕ}

theorem distinct_empty : ({} : Content).Distinct [] where
  known _ h := absurd h List.not_mem_nil
  made _ h := absurd h List.not_mem_nil
  first _ h := absurd h List.not_mem_nil

theorem findTable_congr (h : folded p = folded q) (tables : List DdlTable) :
    findTable tables p = findTable tables q := by
  rw [findTable, findTable, funext fun table : DdlTable => names_congr h table.ref]

/-- What a name finds depends on the places only. -/
theorem findTable_of_places {tables tables' : List DdlTable}
    (h : tables.map (fun table => key table.ref) = tables'.map fun table => key table.ref)
    (p : List Text) : findTable tables p = findTable tables' p := by
  unfold findTable
  induction tables generalizing tables' with
  | nil => rw [List.map_eq_nil_iff.mp h.symm]
  | cons table tables ih =>
    obtain ⟨table', tables', rfl⟩ : ∃ t ts, tables' = t :: ts := by
      cases tables' with
      | nil => cases h
      | cons t ts => exact ⟨t, ts, rfl⟩
    obtain ⟨hhead, hrest⟩ := List.cons.inj h
    rw [List.findIdx?_cons, List.findIdx?_cons, names_of_key hhead p, ih hrest]

theorem getElem?_places : content.places[slot]? =
    (content.out.tables[slot]?).map fun table => key table.ref := List.getElem?_map ..

/-- A table that keeps its place leaves all of them as they are. -/
theorem places_modify {f : DdlTable → DdlTable}
    (htables : content'.out.tables = content.out.tables.modify slot f)
    (hkey : ∀ table, content.out.tables[slot]? = some table → key (f table).ref = key table.ref) :
    content'.places = content.places := by
  refine List.ext_getElem? fun i => ?_
  rw [getElem?_places, getElem?_places, htables, List.getElem?_modify]
  cases hold : content.out.tables[i]? with
  | none => rfl
  | some table =>
    by_cases hslot : slot = i
    · subst hslot
      simp [hkey table hold]
    · simp [hslot]

namespace Content.Distinct

theorem of_places (h : content.Distinct seen) (hplaces : content'.places = content.places) :
    content'.Distinct seen where
  known := hplaces ▸ h.known
  made := hplaces ▸ h.made
  first q hq slot hslot := by
    rw [findTable_of_places hplaces]
    exact h.first q hq slot (hplaces ▸ hslot)

theorem find (h : content.Distinct seen) (hq : q ∈ seen) (hpq : folded p = folded q)
    (hplace : content.places[slot]? = some (key (freshTable q).ref)) :
    findTable content.out.tables p = some slot := by
  rw [findTable_congr hpq]
  exact h.first q hq slot hplace

theorem find_none (h : content.Distinct seen)
    (hnone : ∀ q ∈ seen, names p (freshTable q).ref = false) :
    findTable content.out.tables p = none := by
  refine List.findIdx?_eq_none_iff.mpr fun table htable => ?_
  obtain ⟨q, hq, hkey⟩ := h.known _ (List.mem_map_of_mem htable)
  rw [names_of_key hkey p]
  exact hnone q hq

theorem place_of_find (h : content.Distinct seen) (htold : NeverMistaken seen p)
    (hfind : findTable content.out.tables p = some slot) :
    content.places[slot]? = some (key (freshTable p).ref) := by
  rcases htold with ⟨q, hq, hqp⟩ | hnone
  · obtain ⟨slot', hplace⟩ := h.made q hq
    have hsame := h.find hq hqp.symm hplace
    obtain rfl := Option.some.inj (hfind.symm.trans hsame)
    rw [← key_congr hqp]
    exact hplace
  · rw [h.find_none hnone] at hfind
    cases hfind

theorem alone (h : content.Distinct seen) {i j : ℕ} {place : Text × Text × Text}
    (hi : content.places[i]? = some place) (hj : content.places[j]? = some place) : i = j := by
  obtain ⟨q, hq, rfl⟩ := h.known place (List.mem_of_getElem? hi)
  exact Option.some.inj ((h.first q hq i hi).symm.trans (h.first q hq j hj))

/-- A name is said once more. -/
theorem again (h : content.Distinct seen) (hq : q ∈ seen) (hqp : folded q = folded p) :
    content.Distinct (seen ++ [p]) where
  known place hplace := by
    obtain ⟨r, hr, hkey⟩ := h.known place hplace
    exact ⟨r, List.mem_append_left _ hr, hkey⟩
  made r hr := by
    rcases List.mem_append.mp hr with hr | hr
    · exact h.made r hr
    · rw [List.mem_singleton.mp hr, ← key_congr hqp]
      exact h.made q hq
  first r hr slot hslot := by
    rcases List.mem_append.mp hr with hr | hr
    · exact h.first r hr slot hslot
    · rw [List.mem_singleton.mp hr] at hslot ⊢
      rw [← key_congr hqp] at hslot
      exact h.find hq hqp.symm hslot

theorem append (h : content.Distinct seen) (hp : TableName p)
    (hnew : ∀ q ∈ seen, names p (freshTable q).ref = false) {table : DdlTable}
    (href : table.ref = (freshTable p).ref)
    (htables : content'.out.tables = content.out.tables ++ [table]) :
    content'.Distinct (seen ++ [p]) := by
  have hplaces : content'.places = content.places ++ [key (freshTable p).ref] := by
    rw [Content.places, htables, List.map_append, List.map_singleton, href]
    rfl
  have hlength : content.places.length = content.out.tables.length := List.length_map _
  have hself : names p table.ref = true := href ▸ names_self hp
  have hne : ∀ q ∈ seen, key (freshTable q).ref ≠ key (freshTable p).ref := fun q hq hkey => by
    have hnames := names_self hp
    rw [← names_of_key hkey p, hnew q hq] at hnames
    cases hnames
  -- the new place is behind the others, and none of those is the same
  have hat : ∀ {slot : ℕ} {place}, content'.places[slot]? = some place →
      content.places[slot]? = some place ∨
        slot = content.out.tables.length ∧ place = key (freshTable p).ref := by
    intro slot place hslot
    rw [hplaces, List.getElem?_append] at hslot
    split_ifs at hslot with hlt
    · exact .inl hslot
    · obtain ⟨hzero, hplace⟩ := List.getElem?_singleton .. ▸ hslot |> fun h => by
        simpa [List.getElem?_singleton] using h
      exact .inr ⟨by omega, hplace.symm⟩
  refine ⟨fun place hplace => ?_, fun q hq => ?_, fun q hq slot hslot => ?_⟩
  · rw [hplaces] at hplace
    rcases List.mem_append.mp hplace with hold | hmade
    · obtain ⟨q, hq, hkey⟩ := h.known place hold
      exact ⟨q, List.mem_append_left _ hq, hkey⟩
    · exact ⟨p, List.mem_append_right _ List.mem_cons_self, List.mem_singleton.mp hmade⟩
  · rcases List.mem_append.mp hq with hq | hq
    · obtain ⟨slot, hslot⟩ := h.made q hq
      refine ⟨slot, ?_⟩
      rw [hplaces, List.getElem?_append_left (List.getElem?_eq_some_iff.mp hslot).1]
      exact hslot
    · refine ⟨content.places.length, ?_⟩
      rw [List.mem_singleton.mp hq, hplaces]
      exact List.getElem?_concat_length
  · rw [htables, findTable, List.findIdx?_append]
    rcases List.mem_append.mp hq with hq | hq
    · rcases hat hslot with hold | ⟨-, hkey⟩
      · rw [show content.out.tables.findIdx? _ = some slot from h.first q hq slot hold]
        rfl
      · exact absurd hkey (hne q hq)
    · obtain rfl := List.mem_singleton.mp hq
      rcases hat hslot with hold | ⟨rfl, -⟩
      · obtain ⟨r, hr, hkey⟩ := h.known _ (List.mem_of_getElem? hold)
        exact absurd hkey.symm (hne r hr)
      · rw [show content.out.tables.findIdx? _ = none from h.find_none hnew]
        simp [hself]

/-- Every command keeps the tables apart that says no name that is taken for another. -/
theorem apply (h : content.Distinct seen) {command : Command}
    (hnext : ∀ p, command.creates = some p → TableName p ∧ NeverMistaken seen p) :
    (content.apply command).Distinct (seen ++ created [command]) := by
  rcases apply_cases content command with ⟨hcreates, -, hsame⟩ | ⟨p, items, rfl, hcase⟩ |
    ⟨q, items, hcreates, -, hcase⟩
  · rw [show created [command] = [] by simp [created, hcreates], List.append_nil]
    exact h.of_places (congrArg (List.map fun table : DdlTable => key table.ref) hsame)
  · obtain ⟨hp, htold⟩ := hnext p rfl
    change Content.Distinct (seen ++ [p]) _
    rcases hcase with ⟨hnone, happend⟩ | ⟨slot, hfind, hmodify⟩
    · rcases htold with ⟨q, hq, hqp⟩ | hnew
      · obtain ⟨slot, hplace⟩ := h.made q hq
        rw [h.find hq hqp.symm hplace] at hnone
        cases hnone
      · exact h.append hp hnew (onTable_ref _ _) happend
    · have hplace := h.place_of_find htold hfind
      have hkept : (content.apply (.createTable p items)).places = content.places := by
        refine places_modify hmodify fun table htable => ?_
        rw [getElem?_places, htable] at hplace
        rw [onTable_ref]
        exact (Option.some.inj hplace).symm
      rcases htold with ⟨q, hq, hqp⟩ | hnew
      · exact (h.again hq hqp).of_places hkept
      · rw [h.find_none hnew] at hfind
        cases hfind
  · rw [show created [command] = [] by simp [created, hcreates], List.append_nil]
    rcases hcase with ⟨-, hsame⟩ | ⟨slot, -, hmodify⟩
    · exact h.of_places (congrArg (List.map fun table : DdlTable => key table.ref) hsame)
    · exact h.of_places (places_modify hmodify fun table _ => by rw [onTable_ref])

end Content.Distinct

theorem created_append (before after : List Command) :
    created (before ++ after) = created before ++ created after := List.filterMap_append ..

theorem created_cons (command : Command) (commands : List Command) :
    created (command :: commands) = created [command] ++ created commands :=
  created_append [command] commands

theorem mem_created {command : Command} : q ∈ created [command] ↔ command.creates = some q := by
  rw [created, List.mem_filterMap]
  simp

/-- The entry of a name: it is where it is, and has the place of the name. -/
structure Content.Entry (content : Content) (p : List Text) (slot : ℕ) (table : DdlTable) : Prop where
  there : content.out.tables[slot]? = some table
  place : key table.ref = key (freshTable p).ref

namespace Content.Entry
variable {table : DdlTable}

theorem at_place (h : content.Entry p slot table) :
    content.places[slot]? = some (key (freshTable p).ref) := by
  rw [getElem?_places, h.there, Option.map_some, h.place]

theorem stays (h : content.Entry p slot table) (htables : content'.out.tables = content.out.tables) :
    content'.Entry p slot table := ⟨htables ▸ h.there, h.place⟩

theorem elsewhere (h : content.Entry p slot table) {other : ℕ} {f : DdlTable → DdlTable}
    (htables : content'.out.tables = content.out.tables.modify other f) (hother : other ≠ slot) :
    content'.Entry p slot table := by
  refine ⟨?_, h.place⟩
  rw [htables, List.getElem?_modify, h.there]
  simp [hother]

theorem changed (h : content.Entry p slot table) {items : List Edit}
    (htables : content'.out.tables = content.out.tables.modify slot (onTable items)) :
    content'.Entry p slot (onTable items table) := by
  refine ⟨?_, ?_⟩
  · rw [htables, List.getElem?_modify, h.there]
    simp
  · rw [onTable_ref]
    exact h.place

theorem eq_of_find (h : content.Entry p slot table) (hdistinct : content.Distinct seen)
    (hp : TableName p) (hlength : p.length = q.length) (htold : NeverMistaken seen q)
    (hfind : findTable content.out.tables q = some slot) : folded q = folded p := by
  have hplace := hdistinct.place_of_find htold hfind
  rw [h.at_place] at hplace
  exact ((key_fresh_iff hp hlength).mp (Option.some.inj hplace)).symm

/-- A command that does not make the table anew gives its entry what it says of it. -/
theorem apply (h : content.Entry p slot table) (hdistinct : content.Distinct seen) (hp : p ∈ seen)
    {known : List (List Text)} (hname : TableName p) (hparts : ∀ r ∈ known, p.length = r.length)
    (htold : ∀ r ∈ known, NeverMistaken seen r) {command : Command}
    (hcreates : ∀ q, command.creates = some q → q ∈ known ∧ folded q ≠ folded p) :
    ∃ items, (content.apply command).Entry p slot (onTable items table) ∧
      ∀ commands edits, Gets known p commands edits →
        Gets known p (command :: commands) (items ++ edits) := by
  rcases apply_cases content command with ⟨-, haddress, hsame⟩ | ⟨q, items, rfl, hcase⟩ |
    ⟨q, items, -, haddress, hcase⟩
  · refine ⟨[], h.stays hsame, fun commands edits hgets => .other (fun q items hq => ?_) hgets⟩
    rw [haddress] at hq
    cases hq
  · refine ⟨[], ?_, fun commands edits hgets => .other (fun q items hq => by cases hq) hgets⟩
    obtain ⟨hq, hne⟩ := hcreates q rfl
    rcases hcase with ⟨-, happend⟩ | ⟨other, hfind, hmodify⟩
    · refine ⟨?_, h.place⟩
      rw [happend, List.getElem?_append_left (List.getElem?_eq_some_iff.mp h.there).1]
      exact h.there
    · refine h.elsewhere hmodify ?_
      rintro rfl
      exact hne (h.eq_of_find hdistinct hname (hparts q hq) (htold q hq) hfind)
  · by_cases hown : folded q = folded p
    · have hfind := hdistinct.find hp hown h.at_place
      rcases hcase with ⟨hnone, -⟩ | ⟨other, hother, hmodify⟩
      · rw [hfind] at hnone
        cases hnone
      · obtain rfl := Option.some.inj (hfind.symm.trans hother)
        exact ⟨items, h.changed hmodify, fun commands edits hgets => .own haddress hown hgets⟩
    · have hskip : ∀ commands edits, Gets known p commands edits →
          Gets known p (command :: commands) ([] ++ edits) := fun commands edits hgets =>
        .other (fun q' items' hq' => by
          obtain ⟨rfl, -⟩ := Prod.mk.inj (Option.some.inj (haddress.symm.trans hq'))
          exact hown) hgets
      rcases hcase with ⟨-, hsame⟩ | ⟨other, hfind, hmodify⟩
      · exact ⟨[], h.stays hsame, hskip⟩
      · by_cases hother : other = slot
        · subst hother
          have hunknown : ∀ r ∈ known, folded q ≠ folded r := fun r hr hqr => by
            rw [findTable_congr hqr] at hfind
            exact hown (hqr.trans (h.eq_of_find hdistinct hname (hparts r hr) (htold r hr) hfind))
          exact ⟨items, h.changed hmodify, fun commands edits hgets =>
            .unknown haddress hunknown hgets⟩
        · exact ⟨[], h.elsewhere hmodify hother, hskip⟩

/-- So do many of them. -/
theorem run (h : content.Entry p slot table) (hdistinct : content.Distinct seen) (hp : p ∈ seen)
    {known later : List (List Text)} {commands : List Command}
    (hparts : ∀ r ∈ known, TableName r ∧ p.length = r.length)
    (htold : NamesApart seen (created commands ++ later))
    (hknown : ∀ r, r ∈ known ↔ r ∈ seen ∨ r ∈ created commands ++ later)
    (hcreates : ∀ q ∈ created commands, folded q ≠ folded p) :
    ∃ edits, (content.run commands).Entry p slot (onTable edits table) ∧
      (content.run commands).Distinct (seen ++ created commands) ∧ Gets known p commands edits := by
  induction commands generalizing content seen table with
  | nil => exact ⟨[], h, by rwa [created, List.filterMap_nil, List.append_nil], .done⟩
  | cons command commands ih =>
    rw [created_cons, List.append_assoc] at htold hknown
    have hnext : ∀ q, command.creates = some q → q ∈ known := fun q hq =>
      (hknown q).mpr (.inr (List.mem_append_left _ (mem_created.mpr hq)))
    have htoldAll : ∀ r ∈ known, NeverMistaken seen r := fun r hr => htold.told ((hknown r).mp hr)
    obtain ⟨items, hentry, hgets⟩ := h.apply hdistinct hp (hparts p ((hknown p).mpr (.inl hp))).1
      (fun r hr => (hparts r hr).2) htoldAll fun q hq => ⟨hnext q hq, hcreates q
        (by rw [created_cons]; exact List.mem_append_left _ (mem_created.mpr hq))⟩
    obtain ⟨edits, hend, hapart, hrest⟩ := ih hentry
      (hdistinct.apply fun q hq => ⟨(hparts q (hnext q hq)).1, htoldAll q (hnext q hq)⟩)
      (List.mem_append_left _ hp) (namesApart_append.mp htold).2
      (fun r => by simp only [hknown r, List.mem_append, or_assoc])
      fun q hq => hcreates q (by rw [created_cons]; exact List.mem_append_right _ hq)
    rw [← onTable_append] at hend
    rw [created_cons, ← List.append_assoc]
    exact ⟨items ++ edits, hend, hapart, hgets commands edits hrest⟩

end Content.Entry

theorem Content.Distinct.run (h : content.Distinct seen) {commands : List Command}
    (hparts : ∀ r ∈ created commands, TableName r) (htold : NamesApart seen (created commands)) :
    (content.run commands).Distinct (seen ++ created commands) := by
  induction commands generalizing content seen with
  | nil => rwa [created, List.filterMap_nil, List.append_nil]
  | cons command commands ih =>
    rw [created_cons] at htold hparts ⊢
    rw [← List.append_assoc]
    refine ih (h.apply fun q hq => ?_) (fun r hr => hparts r (List.mem_append_right _ hr))
      (namesApart_append.mp htold).2
    have hmem : q ∈ created [command] ++ created commands :=
      List.mem_append_left _ (mem_created.mpr hq)
    exact ⟨hparts q hmem, htold.told (.inr hmem)⟩

theorem Content.entry_created (content : Content) (p : List Text) (items : List Edit) : ∃ slot,
    (content.apply (.createTable p items)).Entry p slot (onTable items (freshTable p)) := by
  have hplace : key (onTable items (freshTable p)).ref = key (freshTable p).ref := by rw [onTable_ref]
  rcases apply_cases content (.createTable p items) with ⟨hnone, -⟩ | ⟨q, items', heq, hcase⟩ |
    ⟨q, items', hnone, -⟩
  · cases hnone
  · cases heq
    rcases hcase with ⟨-, happend⟩ | ⟨slot, hfind, hmodify⟩
    · refine ⟨content.out.tables.length, ?_, hplace⟩
      rw [happend]
      simp
    · refine ⟨slot, ?_, hplace⟩
      obtain ⟨hlt, -⟩ := List.findIdx?_eq_some_iff_getElem.mp hfind
      rw [hmodify, List.getElem?_modify, List.getElem?_eq_getElem hlt]
      simp
  · cases hnone

theorem places_taken (items : List Edit) (hfind : findTable content.out.tables p = some slot) (i : ℕ) :
    (content.apply (.createTable p items)).places[i]? =
      if i = slot then some (key (freshTable p).ref) else content.places[i]? := by
  obtain ⟨hlt, -⟩ := List.findIdx?_eq_some_iff_getElem.mp hfind
  rw [getElem?_places, getElem?_places, apply_eq_carry rfl, Content.carry, hfind]
  change ((content.out.tables.modify slot _)[i]?).map _ = _
  rw [List.getElem?_modify]
  by_cases hi : i = slot
  · subst hi
    simp [List.getElem?_eq_getElem hlt, onTable_ref]
  · simp [hi, Ne.symm hi]

/-- Every table has the place of a name that was created, whatever finds it. -/
theorem place_created (commands : List Command) (h : ∀ place ∈ content.places, ∃ q ∈ seen,
      place = key (freshTable q).ref) : ∀ place ∈ (content.run commands).places,
    ∃ q ∈ seen ++ created commands, place = key (freshTable q).ref := by
  induction commands generalizing content seen with
  | nil => simpa [created, Content.run] using h
  | cons command commands ih =>
    rw [created_cons, ← List.append_assoc]
    refine ih fun place hplace => ?_
    have hold : place ∈ content.places → ∃ q ∈ seen ++ created [command],
        place = key (freshTable q).ref := fun hold => by
      obtain ⟨q, hq, hkey⟩ := h place hold
      exact ⟨q, List.mem_append_left _ hq, hkey⟩
    have hmodified : ∀ {slot : ℕ} {f : DdlTable → DdlTable},
        (content.apply command).out.tables = content.out.tables.modify slot f →
        (∀ table, key (f table).ref = key table.ref ∨ ∃ q ∈ created [command],
          key (f table).ref = key (freshTable q).ref) →
        ∃ q ∈ seen ++ created [command], place = key (freshTable q).ref := by
      intro slot f hmodify hf
      obtain ⟨table, htable, rfl⟩ := List.mem_map.mp hplace
      rw [hmodify] at htable
      obtain ⟨i, hi⟩ := List.mem_iff_getElem?.mp htable
      rw [List.getElem?_modify] at hi
      obtain ⟨old, hget, rfl⟩ := Option.map_eq_some_iff.mp hi
      have hthere : key old.ref ∈ content.places :=
        List.mem_map_of_mem (List.mem_of_getElem? hget)
      split_ifs with hslot
      · rcases hf old with hkept | ⟨q, hq, hmade⟩
        · obtain ⟨q, hq, hkey⟩ := h _ hthere
          exact ⟨q, List.mem_append_left _ hq, hkept.trans hkey⟩
        · exact ⟨q, List.mem_append_right _ hq, hmade⟩
      · obtain ⟨q, hq, hkey⟩ := h _ hthere
        exact ⟨q, List.mem_append_left _ hq, hkey⟩
    rcases apply_cases content command with ⟨-, -, hsame⟩ | ⟨p, items, rfl, hcase⟩ |
      ⟨q, items, -, -, hcase⟩
    · exact hold (by rwa [Content.places, hsame] at hplace)
    · have hmem : p ∈ created [Command.createTable p items] := mem_created.mpr rfl
      rcases hcase with ⟨-, happend⟩ | ⟨slot, -, hmodify⟩
      · rw [Content.places, happend, List.map_append, List.mem_append] at hplace
        rcases hplace with hplace | hplace
        · exact hold hplace
        · refine ⟨p, List.mem_append_right _ hmem, ?_⟩
          rw [List.map_singleton, List.mem_singleton, onTable_ref] at hplace
          exact hplace
      · exact hmodified hmodify fun _ => .inr ⟨p, hmem, by rw [onTable_ref]⟩
    · rcases hcase with ⟨-, hsame⟩ | ⟨slot, -, hmodify⟩
      · exact hold (by rwa [Content.places, hsame] at hplace)
      · exact hmodified hmodify fun _ => .inl (by rw [onTable_ref])

end Store

/-- The table of a name at the end of a script: it was made last by these edits, nothing else has its
place, and the name finds it, also for a key that names no columns. -/
structure TableOf (known : List (List Text)) (p : List Text) (items : List Edit) (after : List Command)
    (out : DdlSnapshot) (slot : ℕ) (table : DdlTable) : Prop where
  there : out.tables[slot]? = some table
  made : ∃ edits rows, Gets known p after edits ∧
    table = (onTable (items ++ edits) (freshTable p)).withRows rows
  alone : ∀ {slot' : ℕ} {table' : DdlTable}, out.tables[slot']? = some table' →
    key table'.ref = key table.ref → slot' = slot
  found : ∀ q, folded q = folded p → findTable out.tables q = some slot
  target : ∀ waiting : PendingKey, folded waiting.target = folded p → waiting.targetIn out =
    if table.primaryKey.length = waiting.locals.length then some table else none

theorem Content.findTable_finish (content : Content) (p : List Text) :
    findTable content.finish.tables p = findTable content.out.tables p := by
  rw [← findTable_keyed, Content.finish, resolvePendingKeys_keyed, findTable_keyed]

theorem Content.getElem?_finish (content : Content) (slot : ℕ) :
    content.finish.tables[slot]? = (content.out.tables[slot]?).map fun table : DdlTable =>
      table.withRows (rowsFor content.out slot content.pending) :=
  resolvePendingKeys_table _ _ slot

/-- The end of the script leaves the places as they are. -/
theorem Content.place_finish {content : Content} {slot : ℕ} {table : DdlTable}
    (h : content.finish.tables[slot]? = some table) : content.places[slot]? = some (key table.ref) := by
  rw [content.getElem?_finish] at h
  obtain ⟨old, hold, rfl⟩ := Option.map_eq_some_iff.mp h
  rw [getElem?_places, hold]
  rfl

/-- The entry of a name is its table at the end. -/
theorem Content.Entry.finish {seen known : List (List Text)} {content : Content} {p : List Text}
    {slot : ℕ} {items edits : List Edit} {after : List Command}
    (h : content.Entry p slot (onTable (items ++ edits) (freshTable p)))
    (hdistinct : content.Distinct seen) (hp : p ∈ seen) (hgets : Gets known p after edits) :
    ∃ table, TableOf known p items after content.finish slot table := by
  have hthere : content.finish.tables[slot]? = some ((onTable (items ++ edits) (freshTable p)).withRows
      (rowsFor content.out slot content.pending)) := by
    rw [content.getElem?_finish, h.there]
    rfl
  have hfound : ∀ q, folded q = folded p → findTable content.finish.tables q = some slot := by
    intro q hq
    rw [content.findTable_finish]
    exact hdistinct.find hp hq h.at_place
  refine ⟨_, hthere, ⟨edits, _, hgets, rfl⟩, ?_, hfound, ?_⟩
  · intro slot' table' htable' hkey
    have hplace := Content.place_finish htable'
    rw [hkey] at hplace
    exact hdistinct.alone hplace (Content.place_finish hthere)
  · intro waiting htarget
    rw [PendingKey.targetIn, hfound _ htarget, Option.bind_some, hthere, Option.filter_some]
    simp only [beq_iff_eq]

theorem TableOf.place {known : List (List Text)} {p : List Text} {items : List Edit}
    {after : List Command} {out : DdlSnapshot} {slot : ℕ} {table : DdlTable}
    (h : TableOf known p items after out slot table) : key table.ref = key (freshTable p).ref := by
  obtain ⟨edits, rows, -, rfl⟩ := h.made
  change key (onTable (items ++ edits) (freshTable p)).ref = _
  rw [onTable_ref]

/-- Behind some statements of a script each table is there as its last definition makes it and as
the later statements change it that say its name; statements that say another name of the script do
not, and no other table has its place. -/
def KeepsTables (commands done : List Command) : Prop :=
  ∀ before p items after, done = before ++ .createTable p items :: after →
    (∀ q ∈ created after, folded q ≠ folded p) →
      ∃ slot table, TableOf (created commands) p items after (({} : Content).run done).finish slot table

theorem TableOf.eq_of_place {known : List (List Text)} {p : List Text} {items : List Edit}
    {after : List Command} {content : Content} {slot i : ℕ} {table : DdlTable}
    (h : TableOf known p items after content.finish slot table)
    (hi : content.places[i]? = some (key (freshTable p).ref)) : i = slot := by
  rw [getElem?_places] at hi
  obtain ⟨old, hold, hkey⟩ := Option.map_eq_some_iff.mp hi
  have hat : content.finish.tables[i]? =
      some (old.withRows (rowsFor content.out i content.pending)) := by
    rw [content.getElem?_finish, hold]
    rfl
  exact h.alone hat (hkey.trans h.place.symm)

/-- A name that is created has a last definition. -/
theorem exists_last_created {done : List Command} {q : List Text} (hq : q ∈ created done) :
    ∃ before p items after, done = before ++ .createTable p items :: after ∧ folded p = folded q ∧
      ∀ r ∈ created after, folded r ≠ folded p := by
  obtain ⟨command, hcommand, hcreates⟩ := List.mem_filterMap.mp hq
  obtain ⟨before, last, after, rfl, hlast, hafter⟩ := exists_last
    (p := fun command : Command => command.creates.any fun p => folded p == folded q)
    ⟨command, hcommand, by simp [hcreates]⟩
  obtain ⟨p, hp, hsame⟩ := (Option.any_eq_true _ _).mp hlast
  have hpq : folded p = folded q := beq_iff_eq.mp hsame
  cases last with
  | createTable p' items =>
    obtain rfl := Option.some.inj hp
    refine ⟨before, _, items, after, rfl, hpq, fun r hr hrp => ?_⟩
    obtain ⟨command, hcommand, hcreates⟩ := List.mem_filterMap.mp hr
    have hnone := hafter command hcommand
    simp [hcreates, hrp.trans hpq] at hnone
  | _ => cases hp

theorem run_append (content : Content) (before after : List Command) :
    content.run (before ++ after) = (content.run before).run after := List.foldl_append ..

section Script
variable {commands : List Command} {n : ℕ} (hn : 1 ≤ n ∧ n ≤ 3)
  (hparts : ∀ p ∈ created commands, p.length = n)
include hn hparts

theorem keepsTables_of_namesApart (htold : NamesApart [] (created commands)) {done rest : List Command}
    (hsplit : commands = done ++ rest) : KeepsTables commands done := by
  rintro before p items after rfl hlast
  have hname : ∀ r ∈ created commands, TableName r := fun r hr => by
    rw [TableName, hparts r hr]
    exact hn
  have hall : created commands = created before ++ [p] ++ (created after ++ created rest) := by
    rw [hsplit, created_append, created_append, created_cons]
    simp [created, Command.creates]
  have hp : p ∈ created commands := by simp [hall]
  obtain ⟨hbefore, hmore⟩ := namesApart_append.mp (hall ▸ htold)
  obtain ⟨hstart, -⟩ := namesApart_append.mp hbefore
  have hdistinct := distinct_empty.run (fun r hr => hname r (by simp [hall, hr])) hstart
  have hnext : ∀ q, (Command.createTable p items).creates = some q →
      TableName q ∧ NeverMistaken (created before) q := by
    intro q hq
    obtain rfl := Option.some.inj hq
    exact ⟨hname p hp, (namesApart_append.mp hbefore).2.told (.inr List.mem_cons_self)⟩
  have hmade := hdistinct.apply hnext
  obtain ⟨slot, hentry⟩ := Content.entry_created (({} : Content).run before) p items
  obtain ⟨edits, hend, hapart, hgets⟩ := hentry.run hmade
    (List.mem_append_right _ List.mem_cons_self) (fun r hr =>
      ⟨hname r hr, by rw [hparts p hp, hparts r hr]⟩)
    hmore (fun r => by rw [hall]; exact List.mem_append) hlast
  rw [← onTable_append] at hend
  rw [run_append]
  obtain ⟨table, htable⟩ := hend.finish hapart (List.mem_append_left _
    (List.mem_append_right _ List.mem_cons_self)) hgets
  exact ⟨slot, table, htable⟩

omit hn hparts in
/-- A name that the comparison takes for the table of a name created before finds some table. -/
theorem KeepsTables.exists_found {done : List Command} {p q : List Text}
    (h : KeepsTables commands done) (hq : q ∈ created done)
    (hnames : names p (freshTable q).ref = true) :
    ∃ slot, findTable (({} : Content).run done).out.tables p = some slot := by
  obtain ⟨before, r, items, after, hdone, hrq, hlast⟩ := exists_last_created hq
  obtain ⟨slot, table, htable⟩ := h before r items after hdone hlast
  have hplace := Content.place_finish htable.there
  rw [getElem?_places] at hplace
  obtain ⟨old, hold, hkey⟩ := Option.map_eq_some_iff.mp hplace
  refine Option.isSome_iff_exists.mp (List.findIdx?_isSome.trans (List.any_eq_true.mpr ?_))
  refine ⟨old, List.mem_of_getElem? hold, ?_⟩
  rw [names_of_key (hkey.trans (htable.place.trans (key_congr hrq)))]
  exact hnames

omit hn hparts in
/-- Every table was made under a name that is created. -/
theorem exists_place_created {done : List Command} {p : List Text} {slot : ℕ}
    (hfind : findTable (({} : Content).run done).out.tables p = some slot) :
    ∃ q ∈ created done,
      (({} : Content).run done).places[slot]? = some (key (freshTable q).ref) := by
  obtain ⟨hlt, -⟩ := List.findIdx?_eq_some_iff_getElem.mp hfind
  have hat := @getElem?_places (({} : Content).run done) slot
  rw [List.getElem?_eq_getElem hlt] at hat
  have hempty : ∀ place ∈ ({} : Content).places, ∃ q ∈ ([] : List (List Text)),
      place = key (freshTable q).ref := fun _ hmem => absurd hmem List.not_mem_nil
  obtain ⟨q, hq, hkey⟩ := place_created done hempty _ (List.mem_of_getElem? hat)
  exact ⟨q, hq, hat.trans (congrArg some hkey)⟩

/-- Where the tables are there behind a statement as in front of it, a new name that it creates finds
none: the name under which a table was made that it takes over has none behind it. -/
theorem not_found_of_keepsTables {done rest : List Command} {p : List Text} {items : List Edit}
    (hsplit : commands = done ++ .createTable p items :: rest) (hbefore : KeepsTables commands done)
    (hbehind : KeepsTables commands (done ++ [.createTable p items]))
    (hnew : ∀ q ∈ created done, folded q ≠ folded p) (slot : ℕ) :
    findTable (({} : Content).run done).out.tables p ≠ some slot := by
  intro hfind
  obtain ⟨q, hq, hplace⟩ := exists_place_created hfind
  obtain ⟨before, r, items', after, hdone, hrq, hlast⟩ := exists_last_created hq
  rw [← key_congr hrq] at hplace
  have hrp : folded p ≠ folded r := fun hpr => hnew q hq (hrq.symm.trans hpr.symm)
  have hp : p ∈ created commands := by
    rw [hsplit, created_append, created_cons]
    exact List.mem_append_right _ (List.mem_append_left _ (mem_created.mpr rfl))
  have hr : r ∈ created commands := by
    rw [hsplit, hdone, created_append, created_append, created_cons]
    exact List.mem_append_left _ (List.mem_append_right _
      (List.mem_append_left _ (mem_created.mpr rfl)))
  have hlength : p.length = r.length := by rw [hparts p hp, hparts r hr]
  have hname : TableName p := by
    rw [TableName, hparts p hp]
    exact hn
  have hlast' : ∀ s ∈ created (after ++ [.createTable p items]), folded s ≠ folded r := by
    intro s hs
    rw [created_append] at hs
    rcases List.mem_append.mp hs with hs | hs
    · exact hlast s hs
    · obtain rfl := Option.some.inj (mem_created.mp hs)
      exact hrp
  obtain ⟨slot₁, table₁, htable₁⟩ := hbefore before r items' after hdone hlast
  obtain ⟨slot₂, table₂, htable₂⟩ := hbehind before r items' (after ++ [.createTable p items])
    (by rw [hdone, List.append_assoc, List.cons_append]) hlast'
  have hlost := Content.place_finish htable₂.there
  rw [htable₂.place, run_append] at hlost
  change ((({} : Content).run done).apply (.createTable p items)).places[slot₂]? = _ at hlost
  rw [places_taken items hfind slot₂] at hlost
  split_ifs at hlost with hslot
  · exact hrp ((key_fresh_iff hname hlength).mp (Option.some.inj hlost))
  · exact hslot ((htable₁.eq_of_place hlost).trans (htable₁.eq_of_place hplace).symm)

/-- Where the tables are there behind all statements so far, a new name is taken for none of them if
they are there behind its own statement, too. -/
theorem namesApart_of_keepsTables
    (h : ∀ done rest, commands = done ++ rest → KeepsTables commands done) :
    NamesApart [] (created commands) := by
  suffices hfrom : ∀ rest done, commands = done ++ rest → NamesApart (created done) (created rest) from
    hfrom commands [] rfl
  intro rest
  induction rest with
  | nil => exact fun done _ => trivial
  | cons command rest ih =>
    intro done hsplit
    have hnext : commands = (done ++ [command]) ++ rest := by rw [hsplit, List.append_assoc]; rfl
    have hmore := ih (done ++ [command]) hnext
    rw [created_append] at hmore
    rw [created_cons]
    refine namesApart_append.mpr ⟨?_, hmore⟩
    cases command with
    | createTable p items =>
      refine ⟨?_, trivial⟩
      by_contra hnot
      obtain ⟨hnew, q, hq, hnames⟩ : (∀ q ∈ created done, folded q ≠ folded p) ∧
          ∃ q ∈ created done, names p (freshTable q).ref = true := by
        simpa [not_or] using hnot
      obtain ⟨slot, hfind⟩ := (h done _ hsplit).exists_found hq hnames
      exact not_found_of_keepsTables hn hparts hsplit (h done _ hsplit) (h _ rest hnext) hnew slot hfind
    | _ => trivial

end Script

/-- Whatever the script, of names with as many parts each: the tables are there behind every
statement exactly when the comparison takes no new name for the table of another one. -/
theorem tables_stay_distinct [Dangling] {script : Text} {commands : List Command}
    (h : Commands {} script commands) {n : ℕ} (hn : 1 ≤ n ∧ n ≤ 3)
    (hparts : ∀ p ∈ created commands, p.length = n) :
    schemaOf script = some (({} : Content).run commands).finish ∧
      ((∀ done rest, commands = done ++ rest → KeepsTables commands done) ↔
        NamesApart [] (created commands)) := by
  refine ⟨?_, namesApart_of_keepsTables hn hparts, fun htold done rest =>
    keepsTables_of_namesApart hn hparts htold⟩
  rw [schemaOf_eq, schemaFrom_eq_some_iff]
  exact ⟨commands, h, rfl⟩

section Small
attribute [local instance] Dangling.small

/-- The catalog of the second table is the schema of the first: its name finds the first one only
where it comes first. -/
theorem catalog_behind_schema_distinct : ∃ commands,
    Commands {} "create table a.s.t (primary key (x)); create table s.b.t (primary key (y))".toList
      commands ∧ (commands.map fun command => command.creates.isSome) = [true, true] ∧
      ∀ done rest, commands = done ++ rest → KeepsTables commands done := by
  have hsecond : Commands (({} : Content).apply (.createTable ["a".toList, "s".toList, "t".toList]
      [.key "x".toList, .applyKeys])) " create table s.b.t (primary key (y))".toList
      [.createTable ["s".toList, "b".toList, "t".toList] [.key "y".toList, .applyKeys]] := by
    refine @Commands.next _ _ _ "create table s.b.t (primary key (y))".toList [] _ _ rfl
      (List.cons_ne_nil _ _) ?_ (.done rfl)
    decide
  have hscript : Commands {}
      "create table a.s.t (primary key (x)); create table s.b.t (primary key (y))".toList
      [.createTable ["a".toList, "s".toList, "t".toList] [.key "x".toList, .applyKeys],
        .createTable ["s".toList, "b".toList, "t".toList] [.key "y".toList, .applyKeys]] := by
    refine @Commands.next _ _ _ _ " create table s.b.t (primary key (y))".toList _ _ rfl
      (List.cons_ne_nil _ _) ?_ hsecond
    decide
  exact ⟨_, hscript, rfl,
    (@tables_stay_distinct _ _ _ hscript 3 (by decide) (by decide)).2.mpr (by decide)⟩

/-- Two tables of one name in two catalogs: the second takes the place of the first. -/
theorem catalogs_not_distinct :
    (schemaOf "create table a.s.t (primary key (x)); create table b.s.t (primary key (y))".toList).map
      (fun out => out.tables.map fun table => (table.ref.catalog, table.primaryKey)) =
        some [("b".toList, ["y".toList])] := by
  decide

end Small

end Uniorm.Ddl
