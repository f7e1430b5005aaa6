import Uniorm.Libpq.Lexical
import Uniorm.Oracle.SqlText
import Uniorm.Sql.Segment

/-! # The texts of the core through the rewriting backends

Whatever characters a name has, delimiting it makes it a run that both backends
skip as a whole; between the names a statement of the core has only plain
characters and marks. So both rewrite exactly the marks.
-/
namespace Uniorm.Backend

open Foundation Sql

def nameBody (name : Text) : Text :=
  (name.flatMap fun c => if c = '"' then [c, c] else [c]) ++ ['"']

theorem delimited_eq (name : Text) : delimited .double name = '"' :: nameBody name := rfl

theorem nameBody_cons (c : Char) (name : Text) :
    nameBody (c :: name) = if c = '"' then c :: c :: nameBody name else c :: nameBody name := by
  rw [nameBody, List.flatMap_cons, List.append_assoc]
  split_ifs with hc <;> rfl

def collapse : Text → Option Text
  | ['"'] => some []
  | '"' :: '"' :: t => (collapse t).map ('"' :: ·)
  | c :: t => if c = '"' then none else (collapse t).map (c :: ·)
  | [] => none

/-- The name a delimited name stands for. -/
def unquote : Text → Option Text
  | '"' :: t => collapse t
  | _ => none

theorem unquote_delimited (name : Text) : unquote (delimited .double name) = some name := by
  rw [delimited_eq, unquote]
  induction name with
  | nil => rfl
  | cons c name ih =>
    rw [nameBody_cons]
    split_ifs with hc
    · rw [hc, collapse, ih]
      rfl
    · rw [collapse, if_neg hc, ih]
      · rfl
      · rintro rfl
        exact absurd rfl hc
      · rintro t rfl
        exact absurd rfl hc

theorem quotedRun_nameBody (name : Text) : Libpq.Lexical.QuotedRun '"' false (nameBody name) := by
  induction name with
  | nil => exact .close
  | cons c name ih =>
    rw [nameBody_cons]
    split_ifs with hc
    · subst hc
      exact .doubled ih
    · exact .other hc (by simp) ih

theorem libpq_read_spell {segs : List Segment} (h : Sound segs) (prev : Option Char) :
    Libpq.pieces.read prev (spell segs) = .ok (segs.map Segment.piece) := by
  induction segs generalizing prev with
  | nil => rfl
  | cons a segs ih =>
    have hrest := ih h.tail
    have hstep : ∃ c sql, spell (a :: segs) = c :: sql ∧
        Libpq.nextPiece prev c sql = .ok (a.piece, spell segs) := by
      cases a with
      | lit c =>
        refine ⟨c, spell segs, rfl, ?_⟩
        have hc := h.plain c (by simp)
        have hquote := h.tail.head?_ne (d := '\'') (by decide) (by decide) (by decide)
        have hne : ∀ d, isPlain d = false → c ≠ d := fun d hd => ne_of_isPlain hc hd
        simp [Libpq.nextPiece, hquote, hne '-' (by decide), hne '/' (by decide),
          hne '\'' (by decide), hne '"' (by decide), hne '$' (by decide), hne '?' (by decide),
          Segment.piece]
      | name n =>
        refine ⟨'"', nameBody n ++ spell segs, rfl, ?_⟩
        have hskip := (quotedRun_nameBody n).skip (by decide)
          (h.next_head?_ne rfl (d := '"') (by decide))
        simp [Libpq.nextPiece, hskip, Libpq.copySpan, Segment.piece, delimited_eq]
      | mark =>
        refine ⟨'?', spell segs, rfl, ?_⟩
        have hlone := h.next_head?_ne rfl (d := '?') (by decide)
        simp [Libpq.nextPiece, hlone, Segment.piece]
    obtain ⟨c, sql, htext, hnext⟩ := hstep
    have hturn : Libpq.pieces.step prev c sql =
        .ok (a.piece, Libpq.lastOf a.piece, spell segs) := by
      simp only [Libpq.pieces, hnext]
      rfl
    rw [htext, Libpq.pieces.read_of_step hturn, hrest]
    rfl

theorem oracle_skip_nameBody (name : Text) {rest : Text} (hrest : rest.head? ≠ some '"') :
    Oracle.skipDoubledQuote '"' (nameBody name ++ rest) = some (nameBody name, rest) := by
  induction name with
  | nil => exact Oracle.skipDoubledQuote_close hrest
  | cons c name ih =>
    rw [nameBody_cons]
    split_ifs with hc
    · simp [hc, Oracle.skipDoubledQuote, ih]
    · obtain ⟨d, t, ht⟩ : ∃ d t, nameBody name = d :: t :=
        List.exists_cons_of_ne_nil (by simp [nameBody])
      rw [ht] at ih
      rw [List.cons_append, ht, List.cons_append, Oracle.skipDoubledQuote, if_neg hc,
        ← List.cons_append, ih]
      rfl

theorem oracle_read_spell {segs : List Segment} (h : Sound segs) :
    Oracle.pieces.read () (spell segs) = .ok (segs.map Segment.piece) := by
  induction segs with
  | nil => rfl
  | cons a segs ih =>
    have hrest := ih h.tail
    have hstep : ∃ c sql, spell (a :: segs) = c :: sql ∧
        Oracle.nextPiece c sql = .ok (a.piece, spell segs) := by
      cases a with
      | lit c =>
        refine ⟨c, spell segs, rfl, ?_⟩
        have hc := h.plain c (by simp)
        have hquote := h.tail.head?_ne (d := '\'') (by decide) (by decide) (by decide)
        have hne : ∀ d, isPlain d = false → c ≠ d := fun d hd => ne_of_isPlain hc hd
        have hskip : Oracle.skipConstruct c (spell segs) = none := by
          simp [Oracle.skipConstruct, hquote, hne '-' (by decide), hne '/' (by decide),
            hne '\'' (by decide), hne '"' (by decide)]
        simp [Oracle.nextPiece, hskip, hne '?' (by decide), Segment.piece]
      | name n =>
        refine ⟨'"', nameBody n ++ spell segs, rfl, ?_⟩
        have hskip := oracle_skip_nameBody n (h.next_head?_ne rfl (d := '"') (by decide))
        simp [Oracle.nextPiece, Oracle.skipConstruct, hskip, Segment.piece, delimited_eq]
      | mark =>
        refine ⟨'?', spell segs, rfl, ?_⟩
        simp [Oracle.nextPiece, Oracle.skipConstruct, Segment.piece]
    obtain ⟨c, sql, htext, hnext⟩ := hstep
    rw [htext, Oracle.pieces.read_of_step ((Oracle.pieces_step ()).mpr hnext), hrest]
    rfl

end Uniorm.Backend
