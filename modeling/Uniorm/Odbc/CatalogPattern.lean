import Uniorm.Foundation.Wildcard
import Uniorm.Odbc.Driver

/-! # Names as search patterns

The catalog calls take a schema and a table as search patterns. Where one name
is asked for, what is handed over is a pattern that spells it, and the driver
reads the pattern back as that name only.
-/
namespace Uniorm.Odbc

open Foundation

inductive CatalogError where
  | argument
  | escape
  | catalog
  deriving DecidableEq, Repr

def CatalogError.what : CatalogError → String
  | argument => "exact catalog argument contains NUL or exceeds the ODBC length limit"
  | escape => "exact catalog reads require a single-byte search pattern escape"
  | catalog => "SQLTables cannot guarantee catalogs containing the pattern escape"

/-- The largest `SQLSMALLINT`. -/
def smallintMax : ℕ := 32767

def Unfit (text : Bytes) : Prop := 0 ∈ text ∨ smallintMax < text.length

instance (text : Bytes) : Decidable (Unfit text) := inferInstanceAs (Decidable (_ ∨ _))

def exactCatalogArgLength (text : Bytes) : Except CatalogError ℕ :=
  if Unfit text then .error .argument else .ok text.length

def catalogPatternEscape (escape : Bytes) : Except CatalogError UInt8 :=
  match escape with
  | [character] => if character = 0 then .error .escape else .ok character
  | _ => .error .escape

/-- The loop over the characters: `%`, `_` and the escape get the escape in front. -/
def patternOf (escapeCharacter : UInt8) (text : Bytes) : Bytes :=
  text.flatMap fun character =>
    if character = 37 ∨ character = 95 ∨ character = escapeCharacter then
      [escapeCharacter, character]
    else [character]

def catalogPatternLiteral (text escape : Bytes) : Except CatalogError Bytes := do
  let _ ← exactCatalogArgLength text
  let escapeCharacter ← catalogPatternEscape escape
  let pattern := patternOf escapeCharacter text
  let _ ← exactCatalogArgLength pattern
  pure pattern

def exactTablesCatalogArg (catalog escape : Bytes) : Except CatalogError Bytes := do
  let _ ← exactCatalogArgLength catalog
  let escapeCharacter ← catalogPatternEscape escape
  if escapeCharacter ∈ catalog then .error .catalog else pure catalog

def searchPattern (escape : UInt8) : Wildcards UInt8 := ⟨escape, 95, 37⟩

def Finds (escape : UInt8) (pattern name : Bytes) : Prop :=
  ∃ places ∈ (searchPattern escape).read pattern, Matches places name

instance (escape : UInt8) (pattern name : Bytes) : Decidable (Finds escape pattern name) :=
  inferInstanceAs (Decidable (∃ places ∈ (searchPattern escape).read pattern, Matches places name))

theorem finds_patternOf (escape : UInt8) (text name : Bytes) :
    Finds escape (patternOf escape text) name ↔ name = text := by
  have hread : (searchPattern escape).read (patternOf escape text) = some (text.map .literal) :=
    (searchPattern escape).read_spell text
  simp only [Finds, hread, Option.mem_some_iff, exists_eq_left']
  exact matches_literals

theorem catalogPatternEscape_eq_ok_iff (escape : Bytes) (character : UInt8) :
    catalogPatternEscape escape = .ok character ↔ escape = [character] ∧ character ≠ 0 := by
  match escape with
  | [] => simp [catalogPatternEscape]
  | [c] =>
    by_cases hc : c = 0
    · simp only [catalogPatternEscape, if_pos hc, List.cons.injEq, and_true, reduceCtorEq, false_iff]
      rintro ⟨rfl, hne⟩
      exact hne hc
    · simp only [catalogPatternEscape, if_neg hc, Except.ok.injEq, List.cons.injEq, and_true]
      constructor
      · rintro rfl
        exact ⟨rfl, hc⟩
      · exact And.left
  | _ :: _ :: _ => simp [catalogPatternEscape]

theorem catalogPatternLiteral_eq_ok_iff (text escape pattern : Bytes) :
    catalogPatternLiteral text escape = .ok pattern ↔ ¬ Unfit text ∧
      ∃ character, escape = [character] ∧ character ≠ 0 ∧ pattern = patternOf character text ∧
        ¬ Unfit pattern := by
  unfold catalogPatternLiteral
  by_cases htext : Unfit text
  · simp [exactCatalogArgLength, htext, bind, Except.bind]
  cases hescape : catalogPatternEscape escape with
  | error e =>
    have hnone : ∀ character, escape = [character] → character = 0 := by
      intro character heq
      by_contra hne
      have hok := (catalogPatternEscape_eq_ok_iff escape character).mpr ⟨heq, hne⟩
      rw [hescape] at hok
      cases hok
    simp only [exactCatalogArgLength, if_neg htext, bind, Except.bind, reduceCtorEq, false_iff]
    rintro ⟨-, character, heq, hne, -⟩
    exact hne (hnone character heq)
  | ok character =>
    obtain ⟨rfl, hne⟩ := (catalogPatternEscape_eq_ok_iff escape character).mp hescape
    by_cases hpattern : Unfit (patternOf character text)
    · simp only [exactCatalogArgLength, if_neg htext, if_pos hpattern, bind, Except.bind, reduceCtorEq,
        false_iff]
      rintro ⟨-, c, heq, -, rfl, hfit⟩
      obtain rfl : character = c := (List.cons.inj heq).1
      exact hfit hpattern
    · simp only [exactCatalogArgLength, if_neg htext, if_neg hpattern, bind, Except.bind, pure,
        Except.pure, Except.ok.injEq]
      constructor
      · rintro rfl
        exact ⟨htext, character, rfl, hne, rfl, hpattern⟩
      · rintro ⟨-, c, heq, -, rfl, -⟩
        rw [(List.cons.inj heq).1]

/-- A name and an escape are refused, or the pattern finds the name and no other. -/
theorem catalog_pattern_exact (text escape : Bytes) :
    (∀ character pattern, escape = [character] → catalogPatternLiteral text escape = .ok pattern →
      ∀ name, Finds character pattern name ↔ name = text) ∧
    ((∃ e, catalogPatternLiteral text escape = .error e) ↔ Unfit text ∨
      (¬ ∃ character, escape = [character] ∧ character ≠ 0) ∨
      ∃ character, escape = [character] ∧ Unfit (patternOf character text)) := by
  constructor
  · rintro character pattern rfl hpattern name
    obtain ⟨-, c, heq, -, rfl, -⟩ := (catalogPatternLiteral_eq_ok_iff _ _ _).mp hpattern
    rw [(List.cons.inj heq).1]
    exact finds_patternOf c text name
  · have hfails : (∃ e, catalogPatternLiteral text escape = .error e) ↔
        ∀ pattern, catalogPatternLiteral text escape ≠ .ok pattern := by
      cases catalogPatternLiteral text escape <;> simp
    simp only [hfails, ne_eq, catalogPatternLiteral_eq_ok_iff]
    constructor
    · intro h
      by_contra hnot
      simp only [not_or, not_not] at hnot
      obtain ⟨htext, ⟨character, rfl, hne⟩, hpattern⟩ := hnot
      exact h _ ⟨htext, character, rfl, hne, rfl, fun hunfit => hpattern ⟨character, rfl, hunfit⟩⟩
    · rintro (htext | hescape | ⟨character, rfl, hunfit⟩) pattern ⟨hfit, c, heq, hne, rfl, hpattern⟩
      · exact hfit htext
      · exact hescape ⟨c, heq, hne⟩
      · rw [← (List.cons.inj heq).1] at hpattern
        exact hpattern hunfit

/-- A catalog that is let through is found by itself, raw wildcards and all. -/
theorem exactTablesCatalogArg_finds {catalog pattern : Bytes} {escape : UInt8}
    (h : exactTablesCatalogArg catalog [escape] = .ok pattern) : Finds escape pattern catalog := by
  unfold exactTablesCatalogArg at h
  by_cases hunfit : Unfit catalog
  · simp [exactCatalogArgLength, hunfit, bind, Except.bind] at h
  by_cases hnul : escape = 0
  · simp [exactCatalogArgLength, hunfit, catalogPatternEscape, hnul, bind, Except.bind] at h
  by_cases hmem : escape ∈ catalog
  · simp [exactCatalogArgLength, hunfit, catalogPatternEscape, hnul, hmem, bind, Except.bind] at h
  · simp only [exactCatalogArgLength, if_neg hunfit, catalogPatternEscape, if_neg hnul, if_neg hmem, bind,
      Except.bind, pure, Except.pure, Except.ok.injEq] at h
    subst h
    obtain ⟨places, hread, hmatch⟩ := (searchPattern escape).read_self hmem
    exact ⟨places, hread, hmatch⟩

end Uniorm.Odbc
