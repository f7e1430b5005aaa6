import Uniorm.Libpq.Parameters
import Uniorm.Oracle.Parameters

/-! # The placeholder contract of the rewriting backends

The core hands every backend a text with `?` for its placeholders; libpq and OCI
bind by number. What the two servers then read in the rewritten text depends on
the characters on both sides of a mark, which the rewriting copies as they are.
-/
namespace Uniorm.Backend

open Foundation Sql

/-- The numbers of a rewritten text are read as its parameters exactly when every mark is clean: by
PostgreSQL when no word and no lone dollar ends in front of it and no digit follows it, by Oracle
when no digit follows it, on a text whose quotes the rewriting opens where the server does. -/
theorem rewritten_numbers_are_parameters (text : Text) :
    (∀ out n, Libpq.rewritePlaceholders text = .ok (out, n) →
      Libpq.Lexical.NoParams true false text → Libpq.Lexical.NeverParts true text →
      (Libpq.Lexical.MeansParameters text out n ↔ Libpq.Lexical.CleanFrom true false text)) ∧
    (∀ out n, Oracle.rewritePlaceholders text = .ok (out, n) →
      Oracle.Lexical.NoParams .fresh text → Oracle.Lexical.QuotesApart text →
      (Oracle.Lexical.MeansParameters text out n ↔ Oracle.Lexical.CleanFrom .fresh text)) :=
  ⟨fun _ _ h hparam hnever => Libpq.Lexical.meansParameters_iff h hparam hnever,
    fun _ _ h hparam hquotes => Oracle.Lexical.meansParameters_iff h hparam hquotes⟩

/-- Two marks that neither a word nor a digit stands beside. -/
theorem marks_apart_are_parameters :
    Libpq.Lexical.MeansParameters ['=', '?', ',', '?'] ['=', '$', '1', ',', '$', '2'] 2 ∧
      Oracle.Lexical.MeansParameters ['=', '?', ',', '?'] ['=', ':', '1', ',', ':', '2'] 2 := by
  have hboth := rewritten_numbers_are_parameters ['=', '?', ',', '?']
  constructor
  · have hclean : Libpq.Lexical.CleanFrom true false ['=', '?', ',', '?'] := by
      rw [Libpq.Lexical.cleanFrom_iff (.plain (by intro k after h; cases h) (by decide) (by decide)),
        Libpq.Lexical.cleanFrom_iff (.mark _ (by decide)),
        Libpq.Lexical.cleanFrom_iff (.plain (by intro k after h; cases h) (by decide) (by decide)),
        Libpq.Lexical.cleanFrom_iff (.mark _ (by decide))]
      have hcomma : ∀ d ∈ ([',', '?'] : Text).head?, d.isDigit = false := by
        rintro _ ⟨⟩
        rfl
      have hend : ∀ d ∈ ([] : Text).head?, d.isDigit = false := nofun
      exact ⟨Libpq.Lexical.cleanAt_of_ne (by decide) (by decide) _, Libpq.Lexical.cleanAt_mark hcomma,
        Libpq.Lexical.cleanAt_of_ne (by decide) (by decide) _, Libpq.Lexical.cleanAt_mark hend,
        Libpq.Lexical.cleanFrom_nil _ _⟩
    exact (hboth.1 _ _ (by decide) (Libpq.Lexical.noParams_of_dollar (by decide))
      (Libpq.Lexical.neverParts_of_notMem (by decide) (by decide))).mpr hclean
  · exact (hboth.2 _ _ (by decide) (Oracle.Lexical.noParams_of_colon (by decide))
      (Oracle.Lexical.quotesApart_of_front (by decide))).mpr
        (Oracle.Lexical.cleanFrom_of_tails (by decide))

/-- A mark right behind a name: PostgreSQL reads one identifier. A mark with a digit behind it:
Oracle reads the tenth parameter. -/
theorem mark_behind_name_and_before_digit :
    (Libpq.rewritePlaceholders ['x', '?'] = .ok (['x', '$', '1'], 1) ∧
      Libpq.Lexical.NoParams true false ['x', '?'] ∧
      ¬ Libpq.Lexical.MeansParameters ['x', '?'] ['x', '$', '1'] 1) ∧
    (Oracle.rewritePlaceholders ['?', '0'] = .ok ([':', '1', '0'], 1) ∧
      Oracle.Lexical.NoParams .fresh ['?', '0'] ∧
      ¬ Oracle.Lexical.MeansParameters ['?', '0'] [':', '1', '0'] 1) := by
  constructor
  · have hrewrite : Libpq.rewritePlaceholders ['x', '?'] = .ok (['x', '$', '1'], 1) := by decide
    have hparam : Libpq.Lexical.NoParams true false ['x', '?'] :=
      Libpq.Lexical.noParams_of_dollar (by decide)
    refine ⟨hrewrite, hparam, ?_⟩
    rw [Libpq.Lexical.meansParameters_iff hrewrite hparam
      (Libpq.Lexical.neverParts_of_notMem (by decide) (by decide))]
    intro hclean
    have hnext : Libpq.Lexical.Next true false ['x', '?'] (.copied ['x']) true ['?'] :=
      .plain (by intro k after h; cases h) (by decide) (by decide)
    have hmark := hclean _ _ (.later hnext (.here true ['?']))
    exact absurd (hmark.mark [] rfl (by decide)).1 (by decide)
  · have hrewrite : Oracle.rewritePlaceholders ['?', '0'] = .ok ([':', '1', '0'], 1) := by decide
    have hparam : Oracle.Lexical.NoParams .fresh ['?', '0'] :=
      Oracle.Lexical.noParams_of_colon (by decide)
    refine ⟨hrewrite, hparam, ?_⟩
    rw [Oracle.Lexical.meansParameters_iff hrewrite hparam
      (Oracle.Lexical.quotesApart_of_front (by decide))]
    intro hclean
    have hdigit := hclean _ _ .start ['0'] rfl '0' rfl
    exact absurd hdigit (by decide)

end Uniorm.Backend
