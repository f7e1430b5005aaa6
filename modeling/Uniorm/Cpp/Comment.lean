import Mathlib.Tactic.Common

/-! # Taking line comments out of a source text

Outside of literals and block comments two slashes begin a comment that runs to the first line end
without a backslash in front of it. A text is scanned from any state, so that what stands in front
of a piece and what stands behind it come in only by the state between them.
-/
namespace Uniorm.Cpp

/-- What the text read so far leaves a compiler in. A raw string literal is read as an ordinary one. -/
inductive Lexing where
  | code
  | slash
  | literal (quote : Char)
  | escaped (quote : Char)
  | line
  | backslash
  | block
  | star
  deriving DecidableEq, Repr

namespace Lexing

def next : Lexing → Char → List Char × Lexing
  | code, c =>
    if c = '/' then ([], slash) else if c = '"' ∨ c = '\'' then ([c], literal c) else ([c], code)
  | slash, c =>
    if c = '/' then ([], line) else if c = '*' then (['/', c], block)
    else if c = '"' ∨ c = '\'' then (['/', c], literal c) else (['/', c], code)
  | literal q, c =>
    if c = '\\' then ([c], escaped q) else if c = q ∨ c = '\n' then ([c], code) else ([c], literal q)
  | escaped q, c => ([c], literal q)
  | line, c =>
    if c = '\n' then ([], code) else if c = '\\' then ([], backslash) else ([], line)
  | backslash, c => if c = '\\' then ([], backslash) else ([], line)
  | block, c => if c = '*' then ([c], star) else ([c], block)
  | star, c => if c = '/' then ([c], code) else if c = '*' then ([c], star) else ([c], block)

/-- What is kept at the end of the text. -/
def rest : Lexing → List Char
  | slash => ['/']
  | _ => []

end Lexing

def scan : Lexing → List Char → List Char × Lexing
  | m, [] => ([], m)
  | m, c :: cs => ((m.next c).1 ++ (scan (m.next c).2 cs).1, (scan (m.next c).2 cs).2)

/-- A text without its comments, read from a state. -/
def stripFrom (m : Lexing) (text : List Char) : List Char :=
  (scan m text).1 ++ (scan m text).2.rest

def stripComments (text : List Char) : List Char := stripFrom .code text

theorem scan_append (m : Lexing) (a b : List Char) :
    scan m (a ++ b) = ((scan m a).1 ++ (scan (scan m a).2 b).1, (scan (scan m a).2 b).2) := by
  induction a generalizing m with
  | nil => rfl
  | cons c a ih =>
    rw [List.cons_append, scan, ih]
    simp [scan]

theorem stripFrom_append (m : Lexing) (a b : List Char) :
    stripFrom m (a ++ b) = (scan m a).1 ++ stripFrom (scan m a).2 b := by
  rw [stripFrom, stripFrom, scan_append, List.append_assoc]

def Harmless (t : List Char) : Prop := scan .line (t ++ ['\n']) = ([], .code)

instance (t : List Char) : Decidable (Harmless t) :=
  inferInstanceAs (Decidable (scan .line (t ++ ['\n']) = ([], .code)))

/-- The texts of comments that change nothing, whatever follows them, are the harmless ones. -/
theorem harmless_iff (t : List Char) :
    Harmless t ↔ ∀ after, stripFrom .line (t ++ '\n' :: after) = stripFrom .code after := by
  have hsplit (after : List Char) : stripFrom .line (t ++ '\n' :: after) =
      (scan .line (t ++ ['\n'])).1 ++ stripFrom (scan .line (t ++ ['\n'])).2 after := by
    rw [← stripFrom_append, List.append_assoc, List.singleton_append]
  constructor
  · intro h after
    rw [hsplit, h, List.nil_append]
  · intro h
    have hend := h []
    have hletter := h ['a']
    have hslashes := h ['/', '/']
    rw [hsplit] at hend hletter hslashes
    have hnone : (scan .line (t ++ ['\n'])).1 = [] := (List.append_eq_nil_iff.mp hend).1
    rw [hnone, List.nil_append] at hletter hslashes
    apply Prod.ext hnone
    -- a letter tells comments from code, two slashes tell code from literals and blocks
    cases hm : (scan .line (t ++ ['\n'])).2 with
    | code => rfl
    | slash | line | backslash =>
      rw [hm] at hletter
      simp [stripFrom, scan, Lexing.next, Lexing.rest] at hletter
    | literal q =>
      rw [hm] at hslashes
      by_cases hq : '/' = q
      · subst hq
        simp [stripFrom, scan, Lexing.next, Lexing.rest] at hslashes
      · simp [stripFrom, scan, Lexing.next, Lexing.rest, hq] at hslashes
    | escaped | block | star =>
      rw [hm] at hslashes
      simp [stripFrom, scan, Lexing.next, Lexing.rest] at hslashes

/-- A piece of a source text: code, or a line comment with its text. -/
inductive Passage where
  | code (text : List Char)
  | comment (text : List Char)

namespace Passage

def text : Passage → List Char
  | code t => t
  | comment t => '/' :: '/' :: (t ++ ['\n'])

/-- What is left without the comments. -/
def program : Passage → List Char
  | code t => t
  | comment _ => []

def Calm : Lexing → List Passage → Prop
  | _, [] => True
  | m, code t :: ps => Calm (scan m t).2 ps
  | m, comment t :: ps => m = .code ∧ Harmless t ∧ Calm .code ps

instance decidableCalm : (m : Lexing) → (ps : List Passage) → Decidable (Calm m ps)
  | _, [] => isTrue trivial
  | m, code t :: ps => decidableCalm (scan m t).2 ps
  | m, comment t :: ps =>
    have := decidableCalm .code ps
    inferInstanceAs (Decidable (m = .code ∧ Harmless t ∧ Calm .code ps))

theorem Calm.scan {m : Lexing} {ps : List Passage} (h : Calm m ps) :
    Cpp.scan m (ps.flatMap text) = Cpp.scan m (ps.flatMap program) := by
  induction ps generalizing m with
  | nil => rfl
  | cons p ps ih =>
    cases p with
    | code t =>
      rw [List.flatMap_cons, List.flatMap_cons, text, program, scan_append, scan_append, ih h]
    | comment t =>
      obtain ⟨rfl, hharmless, hcalm⟩ := h
      have hcomment : Cpp.scan .code (comment t).text = ([], .code) := hharmless
      rw [List.flatMap_cons, List.flatMap_cons, program, List.nil_append, scan_append, hcomment,
        ih hcalm, List.nil_append]

theorem Calm.strip_eq {ps qs : List Passage} (hp : Calm .code ps) (hq : Calm .code qs)
    (h : ps.flatMap program = qs.flatMap program) :
    stripComments (ps.flatMap text) = stripComments (qs.flatMap text) := by
  rw [stripComments, stripComments, stripFrom, stripFrom, hp.scan, hq.scan, h]

end Passage

end Uniorm.Cpp
