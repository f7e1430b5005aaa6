import Uniorm.Foundation.Scanner

/-! # Token grammars and the scanners that read them

A token grammar says which piece stands at a place of a text, and where a piece
begins that never ends. A scanner that takes the grammar's piece at every place
of the grammar's reading succeeds exactly on the texts that are read to their
end, and fails exactly on those that end inside a piece.
-/
namespace Uniorm.Foundation

/-- What stands at a place: a piece with the text behind it, or a piece that does not end. -/
structure Grammar (σ α β : Type*) where
  Next : σ → List α → β → σ → List α → Prop
  Endless : σ → List α → Prop
  shortens : ∀ {s t b s' t'}, Next s t b s' t' → t'.length < t.length
  total : ∀ s c t, (∃ b s' t', Next s (c :: t) b s' t') ∨ Endless s (c :: t)

namespace Grammar
variable {σ τ α β ε : Type*} (G : Grammar σ α β)

inductive Reads : σ → List α → List β → Prop where
  | done (s : σ) : Reads s [] []
  | next {s s' : σ} {t t' : List α} {b : β} {bs : List β} (h : G.Next s t b s' t')
    (hrest : Reads s' t' bs) : Reads s t (b :: bs)

inductive EndsInside : σ → List α → Prop where
  | here {s : σ} {c : α} {t : List α} (h : G.Endless s (c :: t)) : EndsInside s (c :: t)
  | later {s s' : σ} {t t' : List α} {b : β} (h : G.Next s t b s' t') (hrest : EndsInside s' t') :
    EndsInside s t

/-- The places the reading of a text comes to. -/
inductive Reached (start : σ) (text : List α) : σ → List α → Prop where
  | start : Reached start text start text
  | next {s s' : σ} {t t' : List α} {b : β} (h : Reached start text s t)
    (hnext : G.Next s t b s' t') : Reached start text s' t'

theorem reads_or_endsInside (s : σ) (text : List α) :
    (∃ bs, G.Reads s text bs) ∨ G.EndsInside s text := by
  induction hn : text.length using Nat.strongRecOn generalizing s text with
  | ind n ih =>
    cases text with
    | nil => exact .inl ⟨[], .done s⟩
    | cons c t =>
      rcases G.total s c t with ⟨b, s', t', hnext⟩ | hendless
      · rcases ih _ (hn ▸ G.shortens hnext) s' t' rfl with ⟨bs, hbs⟩ | hends
        · exact .inl ⟨b :: bs, .next hnext hbs⟩
        · exact .inr (.later hnext hends)
      · exact .inr (.here hendless)

/-- A place has one next piece. -/
def Functional : Prop :=
  ∀ {s t b b' s₁ s₂ t₁ t₂}, G.Next s t b s₁ t₁ → G.Next s t b' s₂ t₂ → b = b' ∧ s₁ = s₂ ∧ t₁ = t₂

section
variable {G} {s s' s'' : σ} {t t' t'' : List α} {b : β} {bs : List β}

theorem Reached.later (hnext : G.Next s t b s' t') (h : G.Reached s' t' s'' t'') :
    G.Reached s t s'' t'' := by
  induction h with
  | start => exact .next .start hnext
  | next _ hlast ih => exact .next ih hlast

theorem Reached.of_nil (h : G.Reached s [] s' t') : s' = s ∧ t' = [] := by
  induction h with
  | start => exact ⟨rfl, rfl⟩
  | next _ hnext ih =>
    obtain ⟨-, rfl⟩ := ih
    exact absurd (G.shortens hnext) (Nat.not_lt_zero _)

theorem Functional.reads_iff (h : G.Functional) (hnext : G.Next s t b s' t') :
    G.Reads s t bs ↔ ∃ bs', bs = b :: bs' ∧ G.Reads s' t' bs' := by
  constructor
  · intro hreads
    cases hreads with
    | done => exact absurd (G.shortens hnext) (Nat.not_lt_zero _)
    | next hfirst hrest =>
      obtain ⟨rfl, rfl, rfl⟩ := h hfirst hnext
      exact ⟨_, rfl, hrest⟩
  · rintro ⟨bs', rfl, hrest⟩
    exact .next hnext hrest

/-- What holds at every place holds here and at every place behind the next piece. -/
theorem Functional.forall_reached_iff (h : G.Functional) (hnext : G.Next s t b s' t')
    {P : σ → List α → Prop} :
    (∀ s'' t'', G.Reached s t s'' t'' → P s'' t'') ↔
      P s t ∧ ∀ s'' t'', G.Reached s' t' s'' t'' → P s'' t'' := by
  constructor
  · intro hall
    exact ⟨hall _ _ .start, fun _ _ hreached => hall _ _ (hreached.later hnext)⟩
  · rintro ⟨hhere, hlater⟩ s'' t'' hreached
    have hplace : (s'' = s ∧ t'' = t) ∨ G.Reached s' t' s'' t'' := by
      induction hreached with
      | start => exact .inl ⟨rfl, rfl⟩
      | next _ hlast ih =>
        rcases ih with ⟨rfl, rfl⟩ | hbehind
        · obtain ⟨-, rfl, rfl⟩ := h hnext hlast
          exact .inr .start
        · exact .inr (.next hbehind hlast)
    rcases hplace with ⟨rfl, rfl⟩ | hbehind
    · exact hhere
    · exact hlater _ _ hbehind

end

/-- At every place the reading of a text comes to, the scanner takes the grammar's piece; it fails
where that does not end. -/
structure Followed (S : Scanner τ α β ε) (R : σ → τ → Prop) (start : σ) (text : List α) : Prop where
  next : ∀ {s u c t b s' t'}, G.Reached start text s (c :: t) → R s u →
    G.Next s (c :: t) b s' t' → ∃ u', S.step u c t = .ok (b, u', t') ∧ R s' u'
  endless : ∀ {s u c t}, G.Reached start text s (c :: t) → R s u → G.Endless s (c :: t) →
    ∃ e, S.step u c t = .error e

variable {G} {S : Scanner τ α β ε} {R : σ → τ → Prop} {start s : σ} {u : τ} {text t : List α}
  {bs : List β}

theorem Followed.read_of_reads (h : G.Followed S R start text) (hreads : G.Reads s t bs)
    (hreached : G.Reached start text s t) (hu : R s u) : S.read u t = .ok bs := by
  induction hreads generalizing u with
  | done => rfl
  | @next s s' t t' b bs hnext _ ih =>
    cases t with
    | nil => exact absurd (G.shortens hnext) (Nat.not_lt_zero _)
    | cons c t =>
      obtain ⟨u', hstep, hu'⟩ := h.next hreached hu hnext
      rw [S.read_of_step hstep, ih (.next hreached hnext) hu']
      rfl

theorem Followed.read_of_endsInside (h : G.Followed S R start text) (hends : G.EndsInside s t)
    (hreached : G.Reached start text s t) (hu : R s u) : ∃ e, S.read u t = .error e := by
  induction hends generalizing u with
  | here hendless =>
    obtain ⟨e, hstep⟩ := h.endless hreached hu hendless
    exact ⟨e, S.read_of_error hstep⟩
  | @later s s' t t' b hnext _ ih =>
    cases t with
    | nil => exact absurd (G.shortens hnext) (Nat.not_lt_zero _)
    | cons c t =>
      obtain ⟨u', hstep, hu'⟩ := h.next hreached hu hnext
      obtain ⟨e, hread⟩ := ih (.next hreached hnext) hu'
      refine ⟨e, ?_⟩
      rw [S.read_of_step hstep, hread]
      rfl

/-- The scanner succeeds with the pieces of the grammar, and with nothing else. -/
theorem Followed.read_eq_ok_iff (h : G.Followed S R start text) (hu : R start u) :
    S.read u text = .ok bs ↔ G.Reads start text bs := by
  refine ⟨fun hread => ?_, fun hreads => h.read_of_reads hreads .start hu⟩
  rcases G.reads_or_endsInside start text with ⟨bs', hreads⟩ | hends
  · have hsame := hread.symm.trans (h.read_of_reads hreads .start hu)
    obtain rfl := Except.ok.inj hsame
    exact hreads
  · obtain ⟨e, herror⟩ := h.read_of_endsInside hends .start hu
    cases hread.symm.trans herror

/-- The scanner fails exactly on the texts that end inside a piece. -/
theorem Followed.read_eq_error_iff (h : G.Followed S R start text) (hu : R start u) :
    (∃ e, S.read u text = .error e) ↔ G.EndsInside start text := by
  refine ⟨fun hread => ?_, fun hends => h.read_of_endsInside hends .start hu⟩
  obtain ⟨e, herror⟩ := hread
  rcases G.reads_or_endsInside start text with ⟨bs', hreads⟩ | hends
  · cases herror.symm.trans (h.read_of_reads hreads .start hu)
  · exact hends

end Grammar

end Uniorm.Foundation
