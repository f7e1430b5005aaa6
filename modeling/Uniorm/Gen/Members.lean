import Uniorm.Gen.Comments
import Uniorm.Gen.Spelling

/-! # The names of the members

A member is named after its column in camel case. Where that name is used up by
an earlier member the index of the column is put behind it, and the longer name
is not looked up again.
-/
namespace Uniorm.Gen

open Foundation Sql Cpp Schema

/-- The names the first `i` columns use up, where `names` are those of all columns in camel case: a
column uses up its own, and one whose own is used up already the one with its index behind it. -/
inductive Taken (names : List Text) : ℕ → Text → Prop
  | own {i j : ℕ} {name : Text} (hlt : j < i) (hname : names[j]? = some name) : Taken names i name
  | renamed {i j : ℕ} {name : Text} (hlt : j < i) (hname : names[j]? = some name)
      (htaken : Taken names j name) : Taken names i (name ++ numeral j)

def RenamedApart (names : List Text) : Prop :=
  ∀ i name, names[i]? = some name → Taken names i name → ¬ Taken names i (name ++ numeral i)

section Taken
variable {names : List Text} {i : ℕ} {name : Text}

theorem not_taken_zero : ¬ Taken names 0 name := by
  intro h
  cases h with
  | own hlt => exact absurd hlt (Nat.not_lt_zero _)
  | renamed hlt => exact absurd hlt (Nat.not_lt_zero _)

theorem Taken.mono {k : ℕ} (h : Taken names i name) (hle : i ≤ k) : Taken names k name := by
  cases h with
  | own hlt hname => exact .own (hlt.trans_le hle) hname
  | renamed hlt hname htaken => exact .renamed (hlt.trans_le hle) hname htaken

/-- One more column. -/
theorem taken_succ (hname : names[i]? = some name) (n : Text) : Taken names (i + 1) n ↔
    n = name ∨ (Taken names i name ∧ n = name ++ numeral i) ∨ Taken names i n := by
  constructor
  · intro h
    cases h with
    | own hlt hown =>
      rcases Nat.lt_succ_iff_lt_or_eq.mp hlt with hlt | rfl
      · exact .inr (.inr (.own hlt hown))
      · exact .inl (Option.some.inj (hown.symm.trans hname))
    | renamed hlt hown htaken =>
      rcases Nat.lt_succ_iff_lt_or_eq.mp hlt with hlt | rfl
      · exact .inr (.inr (.renamed hlt hown htaken))
      · obtain rfl := Option.some.inj (hown.symm.trans hname)
        exact .inr (.inl ⟨htaken, rfl⟩)
  · rintro (rfl | ⟨htaken, rfl⟩ | h)
    · exact .own (Nat.lt_succ_self i) hname
    · exact .renamed (Nat.lt_succ_self i) hname htaken
    · exact h.mono (Nat.le_succ i)

end Taken

def camelNames (cols : List ColumnModel) : List Text := cols.map fun col => toCamelCase col.shape.name

theorem memberName_of_taken {i : ℕ} {used : List Text} {col : ColumnModel}
    (h : toCamelCase col.shape.name ∈ used) :
    memberName i used col = toCamelCase col.shape.name ++ numeral i := by
  rw [memberName, if_pos (List.contains_iff_mem.mpr h)]

theorem memberName_of_free {i : ℕ} {used : List Text} {col : ColumnModel}
    (h : toCamelCase col.shape.name ∉ used) : memberName i used col = toCamelCase col.shape.name := by
  rw [memberName, if_neg (mt List.contains_iff_mem.mp h)]

section Loop
variable {names used : List Text} {i : ℕ} (hused : ∀ n, n ∈ used ↔ Taken names i n)
  {col : ColumnModel} (hname : names[i]? = some (toCamelCase col.shape.name))
include hused hname

theorem mem_used_succ (n : Text) :
    n ∈ memberName i used col :: used ↔ Taken names (i + 1) n := by
  rw [List.mem_cons, taken_succ hname, hused]
  by_cases htaken : toCamelCase col.shape.name ∈ used
  · rw [memberName_of_taken htaken]
    have htaken' := (hused _).mp htaken
    constructor
    · rintro (rfl | h)
      · exact .inr (.inl ⟨htaken', rfl⟩)
      · exact .inr (.inr h)
    · rintro (rfl | ⟨-, rfl⟩ | h)
      · exact .inr htaken'
      · exact .inl rfl
      · exact .inr h
  · rw [memberName_of_free htaken]
    have hfree := mt (hused _).mpr htaken
    constructor
    · rintro (rfl | h)
      · exact .inl rfl
      · exact .inr (.inr h)
    · rintro (rfl | ⟨htaken', -⟩ | h)
      · exact .inl rfl
      · exact absurd htaken' hfree
      · exact .inr h

omit hname in
theorem memberName_mem_iff : memberName i used col ∈ used ↔
    Taken names i (toCamelCase col.shape.name) ∧
      Taken names i (toCamelCase col.shape.name ++ numeral i) := by
  by_cases htaken : toCamelCase col.shape.name ∈ used
  · rw [memberName_of_taken htaken, hused, and_iff_right ((hused _).mp htaken)]
  · rw [memberName_of_free htaken]
    exact ⟨fun h => absurd h htaken, fun h => absurd ((hused _).mpr h.1) htaken⟩

end Loop

/-- The names of a loop from the `i`th column on are new and pairwise different where none of its
columns is renamed to one that is used up. -/
theorem buildMembersFrom_nodup_iff {table : TableModel} {cfg : GenConfig} {names used : List Text}
    {i : ℕ} {cols : List ColumnModel} {r : List MemberInfo × List Text}
    (h : buildMembersFrom table cfg i used cols = .ok r)
    (hused : ∀ n, n ∈ used ↔ Taken names i n) (hnames : names.drop i = camelNames cols) :
    ((∀ m ∈ r.1, m.member ∉ used) ∧ (r.1.map MemberInfo.member).Nodup) ↔
      ∀ k name, names[i + k]? = some name → Taken names (i + k) name →
        ¬ Taken names (i + k) (name ++ numeral (i + k)) := by
  induction cols generalizing i used r with
  | nil =>
    obtain rfl := Except.ok.inj h
    have hnone : ∀ k, names[i + k]? = none := by
      intro k
      rw [← List.getElem?_drop, hnames]
      rfl
    simp [hnone]
  | cons col cols ih =>
    rw [buildMembersFrom_cons] at h
    obtain ⟨type, -, hmore⟩ := bind_eq_ok.mp h
    obtain ⟨more, hfrom, hall⟩ := bind_eq_ok.mp hmore
    obtain rfl := Except.ok.inj hall
    have hname : names[i]? = some (toCamelCase col.shape.name) := by
      rw [← Nat.add_zero i, ← List.getElem?_drop, hnames]
      rfl
    have hrest : names.drop (i + 1) = camelNames cols := by
      rw [← List.drop_drop, hnames]
      rfl
    have htail := ih hfrom (mem_used_succ hused hname) hrest
    have hsplit : ((∀ m ∈ (⟨memberName i used col, type.1, col, type.2.1⟩ :: more.1 : List MemberInfo),
        m.member ∉ used) ∧ (memberName i used col :: more.1.map MemberInfo.member).Nodup) ↔
          memberName i used col ∉ used ∧
            (∀ m ∈ more.1, m.member ∉ memberName i used col :: used) ∧
              (more.1.map MemberInfo.member).Nodup := by
      rw [List.forall_mem_cons, List.nodup_cons]
      simp only [List.mem_cons, List.mem_map, not_or, not_exists, not_and]
      constructor
      · rintro ⟨⟨hhead, hmore⟩, hother, hnodup⟩
        exact ⟨hhead, fun m hm => ⟨hother m hm, hmore m hm⟩, hnodup⟩
      · rintro ⟨hhead, hmore, hnodup⟩
        exact ⟨⟨hhead, fun m hm => (hmore m hm).2⟩, fun m hm => (hmore m hm).1, hnodup⟩
    have hhead : memberName i used col ∉ used ↔ ∀ name, names[i]? = some name →
        Taken names i name → ¬ Taken names i (name ++ numeral i) := by
      rw [memberName_mem_iff hused, not_and]
      constructor
      · intro hnew name hname' htaken
        obtain rfl := Option.some.inj (hname'.symm.trans hname)
        exact hnew htaken
      · exact fun hnew htaken => hnew _ hname htaken
    rw [List.map_cons, hsplit, htail, hhead]
    constructor
    · rintro ⟨hzero, hsucc⟩ k
      cases k with
      | zero => exact hzero
      | succ k =>
        have heq : i + (k + 1) = i + 1 + k := by omega
        rw [heq]
        exact hsucc k
    · intro hall
      refine ⟨hall 0, fun k => ?_⟩
      have heq : i + 1 + k = i + (k + 1) := by omega
      rw [heq]
      exact hall (k + 1)

/-- Every column has a member of its own, and no two have the same name. -/
structure DistinctMembers (table : TableModel) (members : List MemberInfo) : Prop where
  columns : members.map MemberInfo.col = table.columns
  nodup : (members.map MemberInfo.member).Nodup

/-- The members of a struct have different names where no column is renamed to one that is used
up. -/
theorem members_distinct_iff {table : TableModel} {cfg : GenConfig} {members : List MemberInfo}
    {warnings : List Text} (h : buildMembers table cfg = .ok (members, warnings)) :
    DistinctMembers table members ↔ RenamedApart (camelNames table.columns) := by
  have hcols := (buildMembersFrom_spec h).1
  have hnone : ∀ n, n ∈ ([] : List Text) ↔ Taken (camelNames table.columns) 0 n := fun n =>
    iff_of_false List.not_mem_nil not_taken_zero
  have hnodup := buildMembersFrom_nodup_iff h hnone (List.drop_zero)
  simp only [Nat.zero_add] at hnodup
  rw [RenamedApart, ← hnodup]
  constructor
  · exact fun hdistinct => ⟨fun _ _ => List.not_mem_nil, hdistinct.nodup⟩
  · exact fun hnames => ⟨hcols, hnames.2⟩

def integerColumn (name : Text) : ColumnModel where
  shape := { name := name, type := .integer }
  typeName := "INTEGER".toList

def tableOf (names : List Text) : TableModel where
  name := "t".toList
  columns := names.map integerColumn

/-- The third column is renamed to the name of the first. -/
theorem members_collide : (["a2".toList, "a".toList, "A".toList].Nodup) ∧
    ∃ r, buildMembers (tableOf ["a2".toList, "a".toList, "A".toList]) {} = .ok r ∧
      r.1.map MemberInfo.member = ["a2".toList, "a".toList, "a2".toList] ∧
      ¬ DistinctMembers (tableOf ["a2".toList, "a".toList, "A".toList]) r.1 := by
  refine ⟨by decide, _, rfl, rfl, fun h => ?_⟩
  exact absurd h.nodup (by decide)

theorem members_distinct_renamed : ∃ r, buildMembers (tableOf ["a".toList, "A".toList]) {} = .ok r ∧
    (DistinctMembers (tableOf ["a".toList, "A".toList]) r.1 ↔
      RenamedApart (camelNames (tableOf ["a".toList, "A".toList]).columns)) := by
  obtain ⟨r, hbuilt⟩ : ∃ r, buildMembers (tableOf ["a".toList, "A".toList]) {} = .ok r := ⟨_, rfl⟩
  exact ⟨r, hbuilt, members_distinct_iff hbuilt⟩

end Uniorm.Gen
