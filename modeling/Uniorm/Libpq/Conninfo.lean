import Uniorm.Connection.Target
import Uniorm.Sql.Token

/-! # The word list a session is opened with

`conninfo_of` spells the pieces of a target as words of libpq's grammar. The grammar splits a word
list at every character of `isspace`, while a value is quoted for a blank, a tab, a quote or a
backslash only: a line break in a password ends the password.
-/
namespace Uniorm.Libpq

open Connection

def needsQuotes (c : Char) : Bool := c == ' ' || c == '\t' || c == '\'' || c == '\\'

def escaped (c : Char) : Text := if c = '\'' ∨ c = '\\' then ['\\', c] else [c]

def spelledValue (value : Text) : Text :=
  if value.any needsQuotes then '\'' :: value.flatMap escaped ++ ['\''] else value

def appendKeyword (conninfo keyword value : Text) : Text :=
  if value = [] then conninfo
  else conninfo ++ (if conninfo = [] then [] else [' ']) ++ keyword ++ '=' :: spelledValue value

def breakLast (separator : Char) : Text → Option (Text × Text)
  | [] => none
  | c :: s =>
    match breakLast separator s with
    | some r => some (c :: r.1, r.2)
    | none => if c = separator then some ([], s) else none

def splitPort (host : Text) : Text × Text := (breakLast ':' host).getD (host, [])

def splitTarget (target : Text) : Text × Text × Text :=
  let halves := (breakLast '/' target).getD (target, [])
  let place := splitPort halves.1
  (place.1, place.2, halves.2)

def conninfoOf (target user password : Text) : Text :=
  if target.contains '=' then
    appendKeyword (appendKeyword target "user".toList user) "password".toList password
  else
    let pieces := splitTarget target
    let conninfo := appendKeyword [] "host".toList pieces.1
    let conninfo := appendKeyword conninfo "port".toList pieces.2.1
    let conninfo := appendKeyword conninfo "dbname".toList pieces.2.2
    let conninfo := appendKeyword conninfo "user".toList user
    appendKeyword conninfo "password".toList password

theorem breakLast_of_notMem {separator : Char} {s : Text} (h : separator ∉ s) :
    breakLast separator s = none := by
  induction s with
  | nil => rfl
  | cons c s ih =>
    rw [List.mem_cons, not_or] at h
    rw [breakLast, ih h.2]
    exact if_neg (Ne.symm h.1)

theorem breakLast_append {separator : Char} {s : Text} (h : separator ∉ s) (front : Text) :
    breakLast separator (front ++ separator :: s) = some (front, s) := by
  induction front with
  | nil =>
    rw [List.nil_append, breakLast, breakLast_of_notMem h]
    exact if_pos rfl
  | cons c front ih => rw [List.cons_append, breakLast, ih]

/-- A target has the pieces it is made of, where the last colon stands in front of the port and the
last slash in front of the database. -/
theorem splitTarget_eq {port database : Text} (hport : ':' ∉ port) (hdatabase : '/' ∉ database)
    (host : Text) : splitTarget (host ++ ':' :: port ++ '/' :: database) = (host, port, database) := by
  unfold splitTarget splitPort
  simp only [breakLast_append hdatabase, Option.getD_some, breakLast_append hport]

abbrev Setting := Text × Text

inductive ConninfoError where
  | missingEquals (keyword : Text)
  | unterminatedQuote
  deriving DecidableEq, Repr

/-- Where in a word list libpq stands. -/
inductive Place where
  | between
  | keyword (k : Text)
  | behindKeyword (k : Text)
  | behindEquals (k : Text)
  | value (k v : Text)
  | escape (k v : Text)
  | quoted (k v : Text)
  | quotedEscape (k v : Text)
  | failed (error : ConninfoError)
  deriving DecidableEq, Repr

/-- The settings that are complete, and the place behind them. -/
structure WordReader where
  settings : List Setting
  place : Place
  deriving DecidableEq, Repr

def WordReader.complete (p : WordReader) (k v : Text) : WordReader := ⟨p.settings ++ [(k, v)], .between⟩

def WordReader.read (p : WordReader) (c : Char) : WordReader :=
  match p.place with
  | .between =>
    if Sql.isSpace c then p
    else if c = '=' then { p with place := .behindEquals [] }
    else { p with place := .keyword [c] }
  | .keyword k =>
    if c = '=' then { p with place := .behindEquals k }
    else if Sql.isSpace c then { p with place := .behindKeyword k }
    else { p with place := .keyword (k ++ [c]) }
  | .behindKeyword k =>
    if Sql.isSpace c then p
    else if c = '=' then { p with place := .behindEquals k }
    else { p with place := .failed (.missingEquals k) }
  | .behindEquals k =>
    if Sql.isSpace c then p
    else if c = '\'' then { p with place := .quoted k [] }
    else if c = '\\' then { p with place := .escape k [] }
    else { p with place := .value k [c] }
  | .value k v =>
    if Sql.isSpace c then p.complete k v
    else if c = '\\' then { p with place := .escape k v }
    else { p with place := .value k (v ++ [c]) }
  | .escape k v => { p with place := .value k (v ++ [c]) }
  | .quoted k v =>
    if c = '\\' then { p with place := .quotedEscape k v }
    else if c = '\'' then p.complete k v
    else { p with place := .quoted k (v ++ [c]) }
  | .quotedEscape k v => { p with place := .quoted k (v ++ [c]) }
  | .failed _ => p

def WordReader.finish (p : WordReader) : Except ConninfoError (List Setting) :=
  match p.place with
  | .between => .ok p.settings
  | .keyword k | .behindKeyword k => .error (.missingEquals k)
  | .behindEquals k => .ok (p.settings ++ [(k, [])])
  | .value k v | .escape k v => .ok (p.settings ++ [(k, v)])
  | .quoted _ _ | .quotedEscape _ _ => .error .unterminatedQuote
  | .failed error => .error error

def WordReader.readAll (p : WordReader) (text : Text) : WordReader := text.foldl WordReader.read p

/-- `conninfo_parse`. -/
def parseConninfo (text : Text) : Except ConninfoError (List Setting) :=
  (WordReader.readAll ⟨[], .between⟩ text).finish

namespace WordReader
variable {p : WordReader} {k v s t : Text} {settings : List Setting}

theorem readAll_append (p : WordReader) (s t : Text) :
    p.readAll (s ++ t) = (p.readAll s).readAll t :=
  List.foldl_append ..

/-- Everything in front has been read as these settings, and a blank would end the last of them. -/
inductive Done : WordReader → List Setting → Prop where
  | between (settings : List Setting) : Done ⟨settings, .between⟩ settings
  | value (settings : List Setting) (k v : Text) : Done ⟨settings, .value k v⟩ (settings ++ [(k, v)])

theorem Done.finish (h : p.Done settings) : p.finish = .ok settings := by
  cases h <;> rfl

theorem Done.read_blank (h : p.Done settings) : p.read ' ' = ⟨settings, .between⟩ := by
  cases h <;> rfl

/-- A setting that is complete stays. -/
theorem settings_kept (p : WordReader) (t : Text) : p.settings <+: (p.readAll t).settings := by
  induction t generalizing p with
  | nil => exact List.prefix_refl _
  | cons c t ih =>
    refine List.IsPrefix.trans ?_ (ih (p.read c))
    unfold read
    split <;> (try split_ifs) <;> simp [complete]

theorem settings_kept_finish (h : p.finish = .ok settings) : p.settings <+: settings := by
  unfold finish at h
  split at h <;> simp only [Except.ok.injEq, reduceCtorEq] at h <;> simp [← h]

theorem kept_of_finish (h : (p.readAll t).finish = .ok settings) : p.settings <+: settings :=
  (settings_kept p t).trans (settings_kept_finish h)

theorem value_of_finish (hplace : p.place = .value k v ∨ p.place = .escape k v)
    (h : (p.readAll t).finish = .ok settings) :
    ∃ v', v <+: v' ∧ settings[p.settings.length]? = some (k, v') := by
  induction t generalizing p v with
  | nil =>
    have hend : settings = p.settings ++ [(k, v)] := by
      change p.finish = _ at h
      unfold finish at h
      rcases hplace with hplace | hplace <;> simp only [hplace, Except.ok.injEq] at h <;> exact h.symm
    exact ⟨v, List.prefix_refl _, by simp [hend]⟩
  | cons c t ih =>
    change ((p.read c).readAll t).finish = _ at h
    rcases hplace with hplace | hplace
    · unfold read at h
      simp only [hplace] at h
      split_ifs at h
      · obtain ⟨more, rfl⟩ := kept_of_finish h
        exact ⟨v, List.prefix_refl _, by simp [complete]⟩
      · exact @ih ⟨p.settings, .escape k v⟩ _ (.inr rfl) h
      · obtain ⟨v', hprefix, hat⟩ := @ih ⟨p.settings, .value k (v ++ [c])⟩ _ (.inl rfl) h
        exact ⟨v', (List.prefix_append _ _).trans hprefix, hat⟩
    · unfold read at h
      simp only [hplace] at h
      obtain ⟨v', hprefix, hat⟩ := @ih ⟨p.settings, .value k (v ++ [c])⟩ _ (.inl rfl) h
      exact ⟨v', (List.prefix_append _ _).trans hprefix, hat⟩

structure IsKeyword (k : Text) : Prop where
  ne_nil : k ≠ []
  plain : ∀ c ∈ k, Sql.isSpace c = false ∧ c ≠ '=' ∧ c ≠ '\'' ∧ c ≠ '\\'

theorem readAll_keyword (hk : ∀ c ∈ k, Sql.isSpace c = false ∧ c ≠ '=' ∧ c ≠ '\'' ∧ c ≠ '\\')
    (front : Text) : readAll ⟨settings, .keyword front⟩ (k ++ '=' :: s) =
      readAll ⟨settings, .behindEquals (front ++ k)⟩ s := by
  induction k generalizing front with
  | nil => simp [readAll, read]
  | cons c k ih =>
    obtain ⟨hspace, hequals, -⟩ := hk c List.mem_cons_self
    have hc : read ⟨settings, .keyword front⟩ c = ⟨settings, .keyword (front ++ [c])⟩ := by
      simp [read, hspace, hequals]
    rw [List.cons_append, readAll, List.foldl_cons, hc]
    exact (ih (fun d hd => hk d (List.mem_cons_of_mem _ hd)) (front ++ [c])).trans (by simp)

theorem readAll_between_keyword (hk : IsKeyword k) : readAll ⟨settings, .between⟩ (k ++ '=' :: s) =
    readAll ⟨settings, .behindEquals k⟩ s := by
  obtain ⟨c, k, rfl⟩ := List.exists_cons_of_ne_nil hk.ne_nil
  obtain ⟨hspace, hequals, -⟩ := hk.plain c List.mem_cons_self
  have hc : read ⟨settings, .between⟩ c = ⟨settings, .keyword [c]⟩ := by
    simp [read, hspace, hequals]
  rw [List.cons_append, readAll, List.foldl_cons, hc]
  exact readAll_keyword (fun d hd => hk.plain d (List.mem_cons_of_mem _ hd)) [c]

theorem readAll_quoted (value front : Text) :
    readAll ⟨settings, .quoted k front⟩ (value.flatMap escaped ++ s) =
      readAll ⟨settings, .quoted k (front ++ value)⟩ s := by
  induction value generalizing front with
  | nil => simp
  | cons c value ih =>
    have hc : readAll ⟨settings, .quoted k front⟩ (escaped c) =
        ⟨settings, .quoted k (front ++ [c])⟩ := by
      by_cases hspecial : c = '\'' ∨ c = '\\'
      · simp [escaped, hspecial, readAll, read]
      · rw [not_or] at hspecial
        simp [escaped, hspecial, readAll, read]
    rw [List.flatMap_cons, List.append_assoc, readAll_append, hc, ih, List.append_assoc]
    rfl

theorem readAll_plain (hplain : ∀ c ∈ t, Sql.isSpace c = false ∧ c ≠ '\\') (front : Text) :
    readAll ⟨settings, .value k front⟩ t = ⟨settings, .value k (front ++ t)⟩ := by
  induction t generalizing front with
  | nil => simp [readAll]
  | cons c t ih =>
    obtain ⟨hspace, hback⟩ := hplain c List.mem_cons_self
    have hc : read ⟨settings, .value k front⟩ c = ⟨settings, .value k (front ++ [c])⟩ := by
      simp [read, hspace, hback]
    rw [readAll, List.foldl_cons, hc]
    exact (ih (fun d hd => hplain d (List.mem_cons_of_mem _ hd)) (front ++ [c])).trans (by simp)

/-- A value that the grammar reads as it was spelled: it is quoted, or nothing in it ends a word. -/
def Kept (value : Text) : Prop :=
  value.any needsQuotes = true ∨ ∀ c ∈ value, Sql.isSpace c = false

instance (value : Text) : Decidable (Kept value) :=
  decidable_of_iff (value.any needsQuotes = true ∨ value.all (!Sql.isSpace ·) = true) (by simp [Kept])

theorem not_needsQuotes (h : ¬v.any needsQuotes = true) :
    ∀ c ∈ v, c ≠ ' ' ∧ c ≠ '\t' ∧ c ≠ '\'' ∧ c ≠ '\\' := by
  intro c hc
  have hplain : needsQuotes c = false := by
    by_contra hneeds
    exact h (List.any_eq_true.mpr ⟨c, hc, by simpa using hneeds⟩)
  simpa [needsQuotes, not_or, and_assoc] using hplain

theorem readAll_spelledValue (hv : Kept v) (hne : v ≠ []) :
    Done (readAll ⟨settings, .behindEquals k⟩ (spelledValue v)) (settings ++ [(k, v)]) := by
  unfold spelledValue
  split_ifs with hquotes
  · have hopen : readAll ⟨settings, .behindEquals k⟩ ('\'' :: v.flatMap escaped) =
        ⟨settings, .quoted k v⟩ := by
      have hbody := @readAll_quoted k [] settings v []
      rw [List.append_nil] at hbody
      exact hbody
    rw [readAll_append, hopen]
    exact .between _
  · have hplain := hv.resolve_left hquotes
    have hspecial := not_needsQuotes hquotes
    obtain ⟨c, v, rfl⟩ := List.exists_cons_of_ne_nil hne
    obtain ⟨-, -, hquote, hback⟩ := hspecial c List.mem_cons_self
    have hc : read ⟨settings, .behindEquals k⟩ c = ⟨settings, .value k [c]⟩ := by
      simp [read, hplain c List.mem_cons_self, hquote, hback]
    have hrest := @readAll_plain k v settings
      (fun d hd => ⟨hplain d (List.mem_cons_of_mem _ hd),
        (hspecial d (List.mem_cons_of_mem _ hd)).2.2.2⟩) [c]
    rw [readAll, List.foldl_cons, hc]
    change Done (readAll _ v) _
    rw [hrest]
    exact .value _ _ _

def wordsText (l : List Setting) : Text :=
  l.flatMap fun w => ' ' :: w.1 ++ '=' :: spelledValue w.2

theorem readAll_blanks (ht : ∀ c ∈ t, Sql.isSpace c = true) :
    readAll ⟨settings, .behindEquals k⟩ t = ⟨settings, .behindEquals k⟩ := by
  induction t with
  | nil => rfl
  | cons c t ih =>
    have hc : read ⟨settings, .behindEquals k⟩ c = ⟨settings, .behindEquals k⟩ := by
      simp [read, ht c List.mem_cons_self]
    rw [readAll, List.foldl_cons, hc]
    exact ih fun d hd => ht d (List.mem_cons_of_mem _ hd)

theorem value_of_wordsText {l : List Setting} (hl : ∀ w ∈ l, IsKeyword w.1) {found : List Setting}
    (h : (readAll ⟨settings, .behindEquals k⟩ (wordsText l)).finish = .ok found) :
    ∃ v', found[settings.length]? = some (k, v') ∧ (∀ c ∈ v'.head?, Sql.isSpace c = false) ∧
      (l ≠ [] → v' ≠ []) := by
  cases l with
  | nil =>
    have hfound : settings ++ [(k, [])] = found := Except.ok.inj h
    exact ⟨[], by simp [← hfound], fun c hc => (by cases hc), fun hne => absurd rfl hne⟩
  | cons w l =>
    obtain ⟨c, key, hkey⟩ := List.exists_cons_of_ne_nil (hl w List.mem_cons_self).ne_nil
    obtain ⟨hspace, -, hquote, hback⟩ :=
      (hl w List.mem_cons_self).plain c (by rw [hkey]; exact List.mem_cons_self)
    have hblank : read ⟨settings, .behindEquals k⟩ ' ' = ⟨settings, .behindEquals k⟩ := rfl
    have hfirst : readAll ⟨settings, .behindEquals k⟩ [' ', c] = ⟨settings, .value k [c]⟩ := by
      rw [readAll, List.foldl_cons, hblank]
      simp [read, hspace, hquote, hback]
    have hsplit : wordsText (w :: l) =
        [' ', c] ++ (key ++ '=' :: spelledValue w.2 ++ wordsText l) := by
      simp [wordsText, hkey]
    rw [hsplit, readAll_append, hfirst] at h
    obtain ⟨v', ⟨more, rfl⟩, hat⟩ := value_of_finish (.inl rfl) h
    refine ⟨_, hat, ?_, fun _ => List.cons_ne_nil _ _⟩
    intro d hd
    obtain rfl : c = d := Option.some.inj hd
    exact hspace

theorem not_read_of_not_kept (hv : ¬Kept v) (hne : v ≠ []) {l : List Setting}
    (hl : ∀ w ∈ l, IsKeyword w.1) {found : List Setting}
    (h : (readAll ⟨settings, .behindEquals k⟩ (spelledValue v ++ wordsText l)).finish = .ok found) :
    found[settings.length]? ≠ some (k, v) := by
  rw [Kept, not_or] at hv
  obtain ⟨hquotes, hspace⟩ := hv
  have hspecial := not_needsQuotes hquotes
  have hspell : spelledValue v = v := if_neg hquotes
  rw [hspell] at h
  push Not at hspace
  obtain ⟨w, hw, hwspace⟩ := hspace
  -- the blanks in front of the value are passed over, and the first behind it ends it
  have hsplit := List.takeWhile_append_dropWhile (p := Sql.isSpace) (l := v)
  have hblanks : ∀ c ∈ v.takeWhile Sql.isSpace, Sql.isSpace c = true := fun c hc =>
    List.mem_takeWhile_imp hc
  have hstart := List.head?_dropWhile_not Sql.isSpace v
  generalize v.takeWhile Sql.isSpace = blanks at *
  generalize v.dropWhile Sql.isSpace = body at *
  rw [← hsplit, List.append_assoc, readAll_append, readAll_blanks hblanks] at h
  cases body with
  | nil =>
    obtain ⟨v', hat, hfirst, -⟩ := value_of_wordsText hl h
    rw [List.append_nil] at hsplit
    rw [hat]
    intro hsame
    obtain ⟨-, rfl⟩ := Prod.mk.inj (Option.some.inj hsame)
    obtain ⟨d, more, rfl⟩ := List.exists_cons_of_ne_nil hne
    have hd : Sql.isSpace d = true := hblanks d (by rw [hsplit]; exact List.mem_cons_self)
    rw [hfirst d rfl] at hd
    cases hd
  | cons c body =>
    have hcv : c ∈ v := by
      rw [← hsplit]
      simp
    obtain ⟨-, -, hquote, hback⟩ := hspecial c hcv
    have hc : Sql.isSpace c = false := by simpa using hstart
    have hread : read ⟨settings, .behindEquals k⟩ c = ⟨settings, .value k [c]⟩ := by
      simp [read, hc, hquote, hback]
    rw [List.cons_append, readAll, List.foldl_cons, hread] at h
    change (readAll _ (body ++ wordsText l)).finish = _ at h
    cases blanks with
    | cons d blanks =>
      obtain ⟨v', ⟨more, rfl⟩, hat⟩ := value_of_finish (.inl rfl) h
      rw [hat]
      intro hsame
      obtain ⟨-, hvalue⟩ := Prod.mk.inj (Option.some.inj hsame)
      rw [← hsplit] at hvalue
      obtain rfl : c = d := (List.cons.inj hvalue).1
      rw [hblanks c List.mem_cons_self] at hc
      cases hc
    | nil =>
      obtain rfl : c :: body = v := hsplit
      have hcut := List.takeWhile_append_dropWhile (p := fun d => !Sql.isSpace d) (l := body)
      have hstop := List.head?_dropWhile_not (fun d => !Sql.isSpace d) body
      have hword : ∀ d ∈ body.takeWhile fun d => !Sql.isSpace d, Sql.isSpace d = false := fun d hd => by
        simpa using List.mem_takeWhile_imp hd
      generalize body.takeWhile (fun d => !Sql.isSpace d) = word at *
      generalize body.dropWhile (fun d => !Sql.isSpace d) = behind at *
      cases behind with
      | nil =>
        rw [List.append_nil] at hcut
        have hnone : Sql.isSpace w = false := by
          rcases List.mem_cons.mp hw with rfl | hmem
          · exact hc
          · exact hword w (hcut ▸ hmem)
        exact absurd hnone hwspace
      | cons d behind =>
        have hd : Sql.isSpace d = true := by simpa using hstop
        have hplain := @readAll_plain k word settings
          (fun e he => ⟨hword e he, (hspecial e (by rw [← hcut]; simp [he])).2.2.2⟩) [c]
        have hends : read ⟨settings, .value k ([c] ++ word)⟩ d =
            ⟨settings ++ [(k, c :: word)], .between⟩ := by
          simp [read, hd, complete]
        rw [← hcut, List.append_assoc, readAll_append, hplain, List.cons_append] at h
        change (readAll (read ⟨settings, .value k ([c] ++ word)⟩ d) (behind ++ wordsText l)).finish =
          _ at h
        rw [hends] at h
        obtain ⟨more, rfl⟩ := kept_of_finish h
        intro hsame
        have hbody : word = body := by simpa using hsame
        have hlength := congrArg List.length (hbody.trans hcut.symm)
        simp at hlength

/-- Settings are read as they were spelled exactly when each of their values is kept. -/
theorem finish_wordsText_iff {p : WordReader} {settings l : List Setting} (hdone : p.Done settings)
    (hl : ∀ w ∈ l, IsKeyword w.1 ∧ w.2 ≠ []) :
    (p.readAll (wordsText l)).finish = .ok (settings ++ l) ↔ ∀ w ∈ l, Kept w.2 := by
  induction l generalizing p settings with
  | nil =>
    rw [List.append_nil]
    exact ⟨fun _ w hw => absurd hw List.not_mem_nil, fun _ => hdone.finish⟩
  | cons w l ih =>
    obtain ⟨hkey, hne⟩ := hl w List.mem_cons_self
    have hrest : ∀ w ∈ l, IsKeyword w.1 ∧ w.2 ≠ [] := fun w' hw' => hl w' (List.mem_cons_of_mem _ hw')
    have hsplit : p.readAll (wordsText (w :: l)) =
        (readAll ⟨settings, .behindEquals w.1⟩ (spelledValue w.2 ++ wordsText l)) := by
      have htext : wordsText (w :: l) =
          ' ' :: (w.1 ++ '=' :: (spelledValue w.2 ++ wordsText l)) := by
        simp [wordsText]
      rw [htext, readAll, List.foldl_cons, hdone.read_blank]
      exact readAll_between_keyword hkey
    rw [hsplit, List.forall_mem_cons]
    by_cases hkept : Kept w.2
    · have hread := @readAll_spelledValue w.1 w.2 settings hkept hne
      have hiff := ih hread hrest
      rw [List.append_assoc] at hiff
      rw [readAll_append]
      exact hiff.trans (by simp [hkept])
    · simp only [hkept, false_and, iff_false]
      intro h
      have hnot := not_read_of_not_kept hkept hne (fun w' hw' => (hrest w' hw').1) h
      exact hnot (by simp)

end WordReader

open WordReader

def filledIn (l : List Setting) : List Setting := l.filter fun w => w.2 ≠ []

def credentials (user password : Text) : List Setting :=
  filledIn [("user".toList, user), ("password".toList, password)]

def piecesOf (target user password : Text) : List Setting :=
  let pieces := splitTarget target
  filledIn [("host".toList, pieces.1), ("port".toList, pieces.2.1), ("dbname".toList, pieces.2.2),
    ("user".toList, user), ("password".toList, password)]

/-- A word list that ends neither right behind an equals sign nor with a backslash that escapes
nothing, nor inside of a word that is none. -/
def Complete (text : Text) : Bool :=
  match (readAll ⟨[], .between⟩ text).place with
  | .between | .value _ _ => true
  | _ => false

theorem appendKeyword_nil (conninfo keyword : Text) : appendKeyword conninfo keyword [] = conninfo :=
  if_pos rfl

/-- Words behind others. -/
theorem foldl_appendKeyword {conninfo : Text} (h : conninfo ≠ []) (l : List Setting) :
    l.foldl (fun conninfo w => appendKeyword conninfo w.1 w.2) conninfo =
      conninfo ++ wordsText (filledIn l) := by
  induction l generalizing conninfo with
  | nil => simp [filledIn, wordsText]
  | cons w l ih =>
    by_cases hempty : w.2 = []
    · rw [List.foldl_cons, hempty, appendKeyword_nil, ih h]
      simp [filledIn, hempty]
    · have happend : appendKeyword conninfo w.1 w.2 =
          conninfo ++ (' ' :: w.1 ++ '=' :: spelledValue w.2) := by
        simp [appendKeyword, hempty, h]
      rw [List.foldl_cons, happend, ih (by simp)]
      simp [filledIn, hempty, wordsText]

/-- The first word has no blank in front. -/
theorem foldl_appendKeyword_nil (l : List Setting) :
    l.foldl (fun conninfo w => appendKeyword conninfo w.1 w.2) [] =
      (wordsText (filledIn l)).tail := by
  induction l with
  | nil => rfl
  | cons w l ih =>
    by_cases hempty : w.2 = []
    · rw [List.foldl_cons, hempty, appendKeyword_nil, ih]
      simp [filledIn, hempty]
    · have happend : appendKeyword [] w.1 w.2 = w.1 ++ '=' :: spelledValue w.2 := by
        simp [appendKeyword, hempty]
      rw [List.foldl_cons, happend, foldl_appendKeyword (by simp)]
      simp [filledIn, hempty, wordsText]

theorem parseConninfo_tail (l : List Setting) :
    parseConninfo (wordsText l).tail = (readAll ⟨[], .between⟩ (wordsText l)).finish := by
  cases l with
  | nil => rfl
  | cons w l => rfl

theorem isKeyword_names : ∀ k ∈ ["host", "port", "dbname", "user", "password"].map String.toList,
    IsKeyword k := by
  intro k hk
  have hplain : ∀ k ∈ ["host", "port", "dbname", "user", "password"].map String.toList, k ≠ [] ∧
      k.all (fun c => !Sql.isSpace c && c != '=' && c != '\'' && c != '\\') = true := by decide
  obtain ⟨hne, hall⟩ := hplain k hk
  refine ⟨hne, fun c hc => ?_⟩
  simpa [and_assoc] using List.all_eq_true.mp hall c hc

theorem filledIn_spec {l : List Setting}
    (hl : ∀ w ∈ l, w.1 ∈ ["host", "port", "dbname", "user", "password"].map String.toList) :
    ∀ w ∈ filledIn l, IsKeyword w.1 ∧ w.2 ≠ [] := by
  intro w hw
  obtain ⟨hmem, hne⟩ := List.mem_filter.mp hw
  exact ⟨isKeyword_names _ (hl w hmem), by simpa using hne⟩

/-- A target that leaves its last word open takes what is appended into it. -/
theorem not_read_of_not_complete {target : Text} {settings l : List Setting}
    (htarget : parseConninfo target = .ok settings) (hopen : Complete target = false) (hne : l ≠ [])
    (hl : ∀ w ∈ l, IsKeyword w.1) : parseConninfo (target ++ wordsText l) ≠ .ok (settings ++ l) := by
  intro h
  unfold parseConninfo at htarget h
  unfold Complete at hopen
  rw [readAll_append] at h
  generalize readAll ⟨[], .between⟩ target = p at *
  rcases p with ⟨found, place⟩
  cases place with
  | between => cases hopen
  | keyword k => cases htarget
  | behindKeyword k => cases htarget
  | behindEquals k =>
    obtain rfl := Except.ok.inj htarget
    obtain ⟨v', hat, -, hsome⟩ := value_of_wordsText hl h
    rw [List.append_assoc, List.getElem?_append_right (le_refl _)] at hat
    exact hsome hne (by simpa using hat.symm)
  | value k v => cases hopen
  | escape k v =>
    obtain rfl := Except.ok.inj htarget
    obtain ⟨w, l, rfl⟩ := List.exists_cons_of_ne_nil hne
    obtain ⟨v', ⟨more, rfl⟩, hat⟩ := @value_of_finish ⟨found, .value k (v ++ [' '])⟩ _ _
      (w.1 ++ '=' :: spelledValue w.2 ++ wordsText l) _ (.inl rfl) h
    rw [List.append_assoc, List.getElem?_append_right (le_refl _)] at hat
    simp at hat
  | quoted k v => cases htarget
  | quotedEscape k v => cases htarget
  | failed error => cases htarget

/-- libpq reads a word list back as the pieces it was built from exactly when no value that is left
unquoted has a character in it that ends a word; a target that is a word list itself, exactly when
moreover nothing is appended to it or its last word is complete. -/
theorem conninfo_exact_iff (target user password : Text) :
    (target.contains '=' = false →
      (parseConninfo (conninfoOf target user password) = .ok (piecesOf target user password) ↔
        ∀ w ∈ piecesOf target user password, Kept w.2)) ∧
    (target.contains '=' = true → ∀ settings, parseConninfo target = .ok settings →
      (parseConninfo (conninfoOf target user password) =
          .ok (settings ++ credentials user password) ↔
        credentials user password = [] ∨
          Complete target = true ∧ ∀ w ∈ credentials user password, Kept w.2)) := by
  constructor
  · intro hplain
    have htext : conninfoOf target user password =
        (wordsText (piecesOf target user password)).tail := by
      rw [conninfoOf, if_neg (by rw [hplain]; exact Bool.false_ne_true)]
      exact foldl_appendKeyword_nil [("host".toList, (splitTarget target).1),
        ("port".toList, (splitTarget target).2.1), ("dbname".toList, (splitTarget target).2.2),
        ("user".toList, user), ("password".toList, password)]
    rw [htext, parseConninfo_tail]
    exact finish_wordsText_iff (.between []) (filledIn_spec (by simp))
  · intro hequals settings hsettings
    have hne : target ≠ [] := by
      rintro rfl
      cases hequals
    have htext : conninfoOf target user password =
        target ++ wordsText (credentials user password) := by
      rw [conninfoOf, if_pos hequals]
      exact foldl_appendKeyword hne [("user".toList, user), ("password".toList, password)]
    have hwords : ∀ w ∈ credentials user password, IsKeyword w.1 ∧ w.2 ≠ [] :=
      filledIn_spec (by simp)
    rw [htext]
    by_cases hnone : credentials user password = []
    · rw [hnone]
      simp [wordsText, hsettings]
    by_cases hcomplete : Complete target = true
    · have hdone : (readAll ⟨[], .between⟩ target).Done settings := by
        unfold parseConninfo at hsettings
        unfold Complete at hcomplete
        generalize readAll ⟨[], .between⟩ target = p at *
        rcases p with ⟨found, place⟩
        cases place with
        | between =>
          obtain rfl := Except.ok.inj hsettings
          exact .between _
        | value k v =>
          obtain rfl := Except.ok.inj hsettings
          exact .value _ _ _
        | _ => cases hcomplete
      unfold parseConninfo
      rw [readAll_append, finish_wordsText_iff hdone hwords]
      simp [hnone, hcomplete]
    · have hopen : Complete target = false := by simpa using hcomplete
      have hnot := not_read_of_not_complete hsettings hopen hnone fun w hw => (hwords w hw).1
      simp [hnone, hopen, hnot]

/-- A session whose pieces have quotes and backslashes in them. -/
theorem quoted_pieces_kept :
    parseConninfo (conninfoOf "h:1/d".toList "it's".toList "a\\ b".toList) =
      .ok (piecesOf "h:1/d".toList "it's".toList "a\\ b".toList) :=
  ((conninfo_exact_iff _ _ _).1 (by decide)).mpr (by decide)

/-- A line break in a password ends it, and what follows is a setting of its own. -/
theorem password_adds_keyword :
    parseConninfo (conninfoOf "h".toList [] "p\nhost=evil".toList) =
      .ok [("host".toList, "h".toList), ("password".toList, "p".toList),
        ("host".toList, "evil".toList)] ∧
    piecesOf "h".toList [] "p\nhost=evil".toList =
      [("host".toList, "h".toList), ("password".toList, "p\nhost=evil".toList)] := by
  decide

end Uniorm.Libpq
