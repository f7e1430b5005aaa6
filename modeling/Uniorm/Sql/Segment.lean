import Mathlib.Data.List.Chain
import Uniorm.Sql.Placeholder

/-! # Texts put together from literals, names and marks

A statement of the core is a sequence of segments: single characters of its
keywords and punctuation, delimited names and marks. Such a text is sound when
its characters open nothing and a character stands between any two names or
marks; a reader then takes it apart into the segments it was put together from.
-/
namespace Uniorm.Sql

inductive Segment where
  | lit (c : Char)
  | name (n : Text)
  | mark
  deriving DecidableEq, Repr

namespace Segment

def text : Segment → Text
  | lit c => [c]
  | name n => delimited .double n
  | mark => ['?']

def piece : Segment → Piece
  | lit c => .copied [c]
  | name n => .copied (delimited .double n)
  | mark => .mark

def isLit : Segment → Bool
  | lit _ => true
  | _ => false

end Segment

def spell (segs : List Segment) : Text := segs.flatMap Segment.text

def numbered (sigil : Char) (segs : List Segment) : Text := emit sigil 0 (segs.map Segment.piece)

def names (segs : List Segment) : List Text :=
  segs.filterMap fun
    | .name n => some n
    | _ => none

def segmentMarks (segs : List Segment) : ℕ := markCount (segs.map Segment.piece)

/-- Characters of keywords, numbers and punctuation. -/
def lits (s : Text) : List Segment := s.map .lit

/-- The characters that neither open nor close anything. -/
def isPlain (c : Char) : Bool :=
  c.isAlphanum || [' ', ',', '(', ')', '=', '<', '>', '.', '*'].contains c

structure Sound (segs : List Segment) : Prop where
  plain : ∀ c, Segment.lit c ∈ segs → isPlain c = true
  apart : segs.IsChain fun a b => a.isLit = true ∨ b.isLit = true

@[simp] theorem spell_nil : spell [] = [] := rfl

@[simp] theorem spell_cons (a : Segment) (segs : List Segment) :
    spell (a :: segs) = a.text ++ spell segs := rfl

@[simp] theorem spell_append (a b : List Segment) : spell (a ++ b) = spell a ++ spell b :=
  List.flatMap_append

@[simp] theorem spell_lits (s : Text) : spell (lits s) = s := by
  induction s with
  | nil => rfl
  | cons c s ih => exact congrArg (c :: ·) ih

@[simp] theorem names_nil : names [] = [] := rfl

@[simp] theorem names_name (n : Text) (segs : List Segment) :
    names (.name n :: segs) = n :: names segs := rfl

@[simp] theorem names_mark (segs : List Segment) : names (.mark :: segs) = names segs := rfl

@[simp] theorem names_append (a b : List Segment) : names (a ++ b) = names a ++ names b :=
  List.filterMap_append

@[simp] theorem names_lits (s : Text) : names (lits s) = [] := by
  induction s with
  | nil => rfl
  | cons c s ih => exact ih

theorem markCount_append (a b : List Piece) : markCount (a ++ b) = markCount a + markCount b := by
  induction a with
  | nil => simp
  | cons p a ih => simp [ih, Nat.add_assoc]

@[simp] theorem segmentMarks_nil : segmentMarks [] = 0 := rfl

@[simp] theorem segmentMarks_name (n : Text) (segs : List Segment) :
    segmentMarks (.name n :: segs) = segmentMarks segs := Nat.zero_add _

@[simp] theorem segmentMarks_mark (segs : List Segment) :
    segmentMarks (.mark :: segs) = segmentMarks segs + 1 := Nat.add_comm _ _

@[simp] theorem segmentMarks_append (a b : List Segment) :
    segmentMarks (a ++ b) = segmentMarks a + segmentMarks b := by
  rw [segmentMarks, List.map_append, markCount_append]
  rfl

@[simp] theorem segmentMarks_lits (s : Text) : segmentMarks (lits s) = 0 := by
  induction s with
  | nil => rfl
  | cons c s ih => exact (Nat.zero_add _).trans ih

theorem Sound.tail {a : Segment} {segs : List Segment} (h : Sound (a :: segs)) : Sound segs :=
  ⟨fun c hc => h.plain c (List.mem_cons_of_mem _ hc), h.apart.of_cons⟩

/-- What stands behind a name or a mark is a character. -/
theorem Sound.next {a : Segment} {segs : List Segment} (h : Sound (a :: segs))
    (ha : a.isLit = false) : segs = [] ∨ ∃ c rest, segs = .lit c :: rest ∧ isPlain c = true := by
  cases segs with
  | nil => exact .inl rfl
  | cons b segs =>
    have hb : b.isLit = true := (List.isChain_cons_cons.mp h.apart).1.resolve_left (by simp [ha])
    cases b with
    | lit c => exact .inr ⟨c, segs, rfl, h.plain c (by simp)⟩
    | name n => cases hb
    | mark => cases hb

theorem sound_lits {s : Text} (hs : s.all isPlain = true) : Sound (lits s) := by
  constructor
  · intro c hc
    obtain ⟨d, hd, ⟨⟩⟩ := List.mem_map.mp hc
    exact List.all_eq_true.mp hs c hd
  · induction s with
    | nil => exact .nil
    | cons c s ih =>
      cases s with
      | nil => exact .singleton _
      | cons d s =>
        exact .cons_cons (.inl rfl) (ih (by simp_all))

theorem sound_name (n : Text) : Sound [.name n] :=
  ⟨by simp, .singleton _⟩

theorem sound_mark : Sound [.mark] := ⟨by simp, .singleton _⟩

/-- Characters between two texts keep their names and marks apart. -/
theorem Sound.join {a b : List Segment} {s : Text} (ha : Sound a) (hs : s.all isPlain = true)
    (hne : s ≠ []) (hb : Sound b) : Sound (a ++ lits s ++ b) := by
  have hmid := sound_lits hs
  constructor
  · intro c hc
    rcases List.mem_append.mp hc with hc | hc
    · rcases List.mem_append.mp hc with hc | hc
      · exact ha.plain c hc
      · exact hmid.plain c hc
    · exact hb.plain c hc
  · have hlit : ∀ x ∈ lits s, x.isLit = true := by
      intro x hx
      obtain ⟨d, -, rfl⟩ := List.mem_map.mp hx
      rfl
    rw [List.isChain_append, List.isChain_append]
    refine ⟨⟨ha.apart, hmid.apart, ?_⟩, hb.apart, ?_⟩
    · intro x _ y hy
      exact .inr (hlit y (List.mem_of_mem_head? hy))
    · intro x hx y _
      left
      rw [List.getLast?_append_of_ne_nil _ (by simpa [lits] using hne)] at hx
      exact hlit x (List.mem_of_getLast? hx)

theorem ne_of_isPlain {c d : Char} (hc : isPlain c = true) (hd : isPlain d = false) : c ≠ d := by
  rintro rfl
  rw [hc] at hd
  cases hd

theorem Sound.head?_ne {segs : List Segment} (h : Sound segs) {d : Char} (hd : isPlain d = false)
    (hquote : d ≠ '"') (hmark : d ≠ '?') : (spell segs).head? ≠ some d := by
  cases segs with
  | nil => simp
  | cons a segs =>
    cases a with
    | lit c =>
      have hc : c ≠ d := ne_of_isPlain (h.plain c (by simp)) hd
      simpa [Segment.text] using hc
    | name n => simpa [Segment.text, delimited, Quote.char] using hquote.symm
    | mark => simpa [Segment.text] using hmark.symm

/-- Behind a name or a mark a sound text goes on with a plain character. -/
theorem Sound.next_head?_ne {a : Segment} {segs : List Segment} (h : Sound (a :: segs))
    (ha : a.isLit = false) {d : Char} (hd : isPlain d = false) : (spell segs).head? ≠ some d := by
  rcases h.next ha with rfl | ⟨c, rest, rfl, hc⟩
  · simp
  · simpa [Segment.text] using ne_of_isPlain hc hd

end Uniorm.Sql
