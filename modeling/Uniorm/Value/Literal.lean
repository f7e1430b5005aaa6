import Uniorm.Value.Decimal

/-! # Literals of exact decimals

What a literal is, and what is read from one: the digits of its integer part
without the zeros in front, those behind the point as they are, and a sign that
a zero does not keep.
-/
namespace Uniorm.Value

open Foundation Sql

namespace Decimal

section Array
variable {digits : Digits} {k : ℕ}

theorem get_eq (h : k < maxDigits) : get digits k = .ok (digits.toList.getD k 0) := by
  rw [get, dif_pos h, List.getD_eq_getElem?_getD]
  simp [h]

theorem put_eq (digits : Digits) (h : k < maxDigits) (value : ℕ) : ∃ digits', put digits k value =
    .ok digits' ∧
    digits'.toList = digits.toList.set k value :=
  ⟨digits.set k value h, dif_pos h, Vector.toList_set ..⟩

theorem length_digits (digits : Digits) : digits.toList.length = maxDigits := Vector.length_toList

theorem drop_eq_getD (h : k < maxDigits) :
    digits.toList.drop k = digits.toList.getD k 0 :: digits.toList.drop (k + 1) := by
  have hlt : k < digits.toList.length := by rwa [length_digits]
  rw [List.drop_eq_getElem_cons hlt, List.getD_eq_getElem?_getD, List.getElem?_eq_getElem hlt,
    Option.getD_some]

theorem take_succ_getD (h : k < maxDigits) :
    digits.toList.take (k + 1) = digits.toList.take k ++ [digits.toList.getD k 0] := by
  have hlt : k < digits.toList.length := by rwa [length_digits]
  rw [List.take_succ_eq_append_getElem hlt, List.getD_eq_getElem?_getD, List.getElem?_eq_getElem hlt,
    Option.getD_some]

/-- All digits below `k` move up by one. -/
theorem shiftUp_spec (h : k < maxDigits) (digits : Digits) : ∃ digits',
    shiftUp k digits = .ok digits' ∧ digits'.toList =
      digits.toList.take 1 ++ digits.toList.take k ++ digits.toList.drop (k + 1) := by
  induction k generalizing digits with
  | zero =>
    refine ⟨digits, rfl, ?_⟩
    rw [List.take_zero, List.append_nil, List.take_append_drop]
  | succ k ih =>
    have hk : k < maxDigits := Nat.lt_of_succ_lt h
    obtain ⟨digits₁, hput, hdigits₁⟩ := put_eq digits h (digits.toList.getD k 0)
    obtain ⟨digits', hshift, hdigits'⟩ := ih hk digits₁
    have hdrop : digits₁.toList.drop (k + 1) =
        digits.toList.getD k 0 :: digits.toList.drop (k + 2) := by
      rw [hdigits₁, List.drop_set, if_neg (lt_irrefl _), Nat.sub_self, drop_eq_getD h,
        List.set_cons_zero]
    refine ⟨digits', ?_, ?_⟩
    · rw [shiftUp, get_eq hk]
      change (put digits (k + 1) (digits.toList.getD k 0) >>= fun digits => shiftUp k digits) = _
      rw [hput]
      exact hshift
    · rw [hdigits', hdrop, hdigits₁, List.take_set_of_le (Nat.succ_le_succ (Nat.zero_le k)),
        List.take_set_of_le (Nat.le_succ k), take_succ_getD hk]
      simp

/-- The first digit that is kept of the integer part `whole`. -/
theorem firstDigit_spec {digits : Digits} {whole : List ℕ} (hne : whole ≠ []) {p : ℕ}
    (hwhole : (digits.toList.drop p).take whole.length = whole) (hfits : p + whole.length ≤ maxDigits) :
    ∃ count < whole.length, firstDigit digits (whole.length - 1) p = .ok (p + count) ∧
      whole.drop count = trimZeros whole := by
  induction whole generalizing p with
  | nil => exact absurd rfl hne
  | cons x whole ih =>
    have hp : p < maxDigits := by
      rw [List.length_cons] at hfits
      omega
    rw [drop_eq_getD hp, List.length_cons, List.take_succ_cons] at hwhole
    obtain ⟨hx, hrest⟩ := List.cons.inj hwhole
    cases whole with
    | nil =>
      exact ⟨0, Nat.one_pos, rfl, (trimZeros_singleton x).symm⟩
    | cons y whole =>
      have hget : firstDigit digits ((x :: y :: whole).length - 1) p =
          if x = 0 then firstDigit digits ((y :: whole).length - 1) (p + 1) else .ok p := by
        rw [← hx]
        change (get digits p >>= fun digit => if digit = 0 then _ else _) = _
        rw [get_eq hp]
        rfl
      rw [hget]
      by_cases hzero : x = 0
      · subst hzero
        have hfits' : p + 1 + (y :: whole).length ≤ maxDigits := by
          rw [List.length_cons] at hfits
          omega
        obtain ⟨count, hcount, hfirst, hdrop⟩ := ih (List.cons_ne_nil _ _) hrest hfits'
        refine ⟨count + 1, Nat.succ_lt_succ hcount, ?_, ?_⟩
        · rw [if_pos rfl, hfirst, Nat.add_assoc, Nat.add_comm 1]
        · rw [List.drop_succ_cons, hdrop, trimZeros]
      · exact ⟨0, Nat.succ_pos _, if_neg hzero, (trimZeros_cons_of_ne hzero _).symm⟩

/-- The digits from `k` on move down behind those below `k - first`. -/
theorem shiftDown_spec {first count k : ℕ} (hfirst : first ≤ k) (hfits : k + count ≤ maxDigits)
    (digits : Digits) : ∃ digits', shiftDown first count k digits = .ok digits' ∧
      digits'.toList.take (k - first + count) =
        digits.toList.take (k - first) ++ (digits.toList.drop k).take count := by
  induction count generalizing k digits with
  | zero => exact ⟨digits, rfl, by simp⟩
  | succ count ih =>
    have hk : k < maxDigits := by omega
    have hto : k - first < maxDigits := by omega
    obtain ⟨digits₁, hput, hdigits₁⟩ := put_eq digits hto (digits.toList.getD k 0)
    obtain ⟨digits', hshift, hdigits'⟩ := ih (Nat.le_succ_of_le hfirst) (by omega) digits₁
    refine ⟨digits', ?_, ?_⟩
    · rw [shiftDown, get_eq hk]
      change (put digits (k - first) (digits.toList.getD k 0) >>= fun digits =>
        shiftDown first count (k + 1) digits) = _
      rw [hput]
      exact hshift
    · have hsub : k + 1 - first + count = k - first + (count + 1) := by omega
      have hto' : k + 1 - first = k - first + 1 := by omega
      have hbelow : digits₁.toList.take (k - first + 1) =
          digits.toList.take (k - first) ++ [digits.toList.getD k 0] := by
        have hlength : k - first < digits₁.toList.length := by rwa [length_digits]
        rw [List.take_succ_eq_append_getElem hlength]
        simp only [hdigits₁, List.take_set_of_le le_rfl, List.getElem_set_self]
      have habove : digits₁.toList.drop (k + 1) = digits.toList.drop (k + 1) := by
        rw [hdigits₁, List.drop_set_of_lt (Nat.lt_succ_of_le (Nat.sub_le k first))]
      rw [hsub, hto', hbelow, habove] at hdigits'
      rw [hdigits', drop_eq_getD hk, List.take_succ_cons, List.append_assoc, List.singleton_append]

end Array

/-- The digits in front of the point and those behind it, as a literal writes them. -/
def spelled (whole : List ℕ) (fraction : Option (List ℕ)) : Text :=
  whole.map digitChar ++ fraction.elim [] fun ds => '.' :: ds.map digitChar

structure Reads (s : Scanning) (whole : List ℕ) (fraction : Option (List ℕ)) : Prop where
  used : s.out.used = whole ++ fraction.getD []
  len : s.out.len = whole.length + (fraction.getD []).length
  scale : s.out.scale = (fraction.getD []).length
  point : s.afterPoint = fraction.isSome
  integers : s.integerDigits = whole.length
  fits : s.out.len ≤ maxDigits
  isDigit : ∀ d ∈ whole ++ fraction.getD [], d < 10

theorem reads_nil : Reads {} [] none :=
  ⟨rfl, rfl, rfl, rfl, rfl, Nat.zero_le _, fun _ h => absurd h List.not_mem_nil⟩

def withDigit (whole : List ℕ) (fraction : Option (List ℕ)) (d : ℕ) : List ℕ × Option (List ℕ) :=
  match fraction with
  | none => (whole ++ [d], none)
  | some ds => (whole, some (ds ++ [d]))

theorem spelled_withDigit (whole : List ℕ) (fraction : Option (List ℕ)) (d : ℕ) :
    spelled (withDigit whole fraction d).1 (withDigit whole fraction d).2 =
      spelled whole fraction ++ [digitChar d] := by
  cases fraction <;> simp [withDigit, spelled]

theorem toNat_digitChar {d : ℕ} (hd : d < 10) : (digitChar d).toNat = '0'.toNat + d := by
  interval_cases d <;> rfl

theorem digitChar_ne {d : ℕ} (hd : d < 10) {c : Char} (hc : c.toNat < 48 ∨ 57 < c.toNat) :
    digitChar d ≠ c := by
  rintro rfl
  rw [toNat_digitChar hd, show '0'.toNat = 48 from rfl] at hc
  omega

theorem digitChar_sub {c : Char} (hc : ¬ (c < '0' ∨ '9' < c)) :
    digitChar (c.toNat - '0'.toNat) = c ∧ c.toNat - '0'.toNat < 10 := by
  obtain ⟨hlow, hhigh⟩ := not_or.mp hc
  have hlow' : 48 ≤ c.toNat := by
    by_contra hlt
    exact hlow (Nat.lt_of_not_le hlt)
  have hhigh' : c.toNat ≤ 57 := by
    by_contra hlt
    exact hhigh (Nat.lt_of_not_le hlt)
  have hzero : '0'.toNat = 48 := rfl
  rw [digitChar, hzero]
  refine ⟨?_, by omega⟩
  rw [Nat.add_sub_cancel' hlow', Char.ofNat_toNat]

theorem digitChar_inRange {d : ℕ} (hd : d < 10) : ¬ (digitChar d < '0' ∨ '9' < digitChar d) := by
  interval_cases d <;> decide

section Reads
variable {s : Scanning} {whole : List ℕ} {fraction : Option (List ℕ)}

theorem readChar_point (h : Reads s whole none) :
    ∃ s', readChar s '.' = .ok s' ∧ Reads s' whole (some []) := by
  have hpoint : ¬ s.afterPoint = true := by rw [h.point]; decide
  refine ⟨{ s with afterPoint := true }, ?_, ?_⟩
  · rw [readChar, if_pos rfl, if_neg hpoint]
    rfl
  · exact ⟨h.used, h.len, h.scale, rfl, h.integers, h.fits, h.isDigit⟩

theorem readChar_digit (h : Reads s whole fraction) {d : ℕ} (hd : d < 10)
    (hroom : s.out.len < maxDigits) : ∃ s', readChar s (digitChar d) = .ok s' ∧
      Reads s' (withDigit whole fraction d).1 (withDigit whole fraction d).2 := by
  have hdot : ¬ digitChar d = '.' := digitChar_ne hd (.inl (by decide))
  have hvalue : (digitChar d).toNat - '0'.toNat = d := by
    rw [toNat_digitChar hd, Nat.add_sub_cancel_left]
  obtain ⟨digits, hput, hdigits⟩ := put_eq s.out.digits hroom d
  have hused : digits.toList.take (s.out.len + 1) = s.out.used ++ [d] := by
    have hlength : s.out.len < digits.toList.length := by rwa [length_digits]
    rw [List.take_succ_eq_append_getElem hlength, used]
    simp only [hdigits, List.take_set_of_le le_rfl, List.getElem_set_self]
  have hisDigit : ∀ x ∈ whole ++ fraction.getD [] ++ [d], x < 10 := by
    intro x hx
    rcases List.mem_append.mp hx with hx | hx
    · exact h.isDigit x hx
    · rwa [List.mem_singleton.mp hx]
  rw [h.used] at hused
  rw [readChar, if_neg hdot, if_neg (digitChar_inRange hd), if_neg hroom.ne, hvalue, hput]
  have hpoint := h.point
  cases fraction with
  | none =>
    have hnone : ¬ s.afterPoint = true := by rw [hpoint]; decide
    refine ⟨{ s with
      out := { s.out with digits := digits, len := s.out.len + 1 }
      integerDigits := s.integerDigits + 1 }, ?_, ?_⟩
    · exact if_neg hnone
    · refine ⟨?_, ?_, h.scale, hpoint, ?_, hroom, ?_⟩
      · simpa [withDigit, used] using hused
      · simp [withDigit, h.len]
      · simp [withDigit, h.integers]
      · simpa [withDigit] using hisDigit
  | some ds =>
    refine ⟨{ s with
      out := { s.out with digits := digits, len := s.out.len + 1, scale := s.out.scale + 1 } }, ?_, ?_⟩
    · exact if_pos hpoint
    · refine ⟨?_, ?_, ?_, hpoint, h.integers, hroom, ?_⟩
      · simpa [withDigit, used] using hused
      · simp [withDigit, h.len, Nat.add_assoc]
      · simp [withDigit, h.scale]
      · simpa [withDigit] using hisDigit

/-- Where a character is refused it is so by a `type_mismatch`, and it is no digit with room for it
and no first point. -/
theorem readChar_cases (h : Reads s whole fraction) (c : Char) :
    (c = '.' ∧ fraction = none) ∨ (∃ d < 10, c = digitChar d ∧ s.out.len < maxDigits) ∨
      ((∃ what, readChar s c = .error (.typeMismatch what)) ∧ (c = '.' → fraction ≠ none) ∧
        ∀ d < 10, c = digitChar d → s.out.len = maxDigits) := by
  by_cases hdot : c = '.'
  · subst hdot
    have hother : ∀ d < 10, '.' ≠ digitChar d := fun d hd => (digitChar_ne hd (.inl (by decide))).symm
    cases hfraction : fraction with
    | none => exact .inl ⟨rfl, rfl⟩
    | some ds =>
      refine .inr (.inr ⟨⟨"decimal_t literal has two radix points", ?_⟩,
        fun _ => Option.some_ne_none ds, fun d hd heq => absurd heq (hother d hd)⟩)
      rw [readChar, if_pos rfl, if_pos (by rw [h.point, hfraction]; rfl)]
      rfl
  by_cases hrange : c < '0' ∨ '9' < c
  · refine .inr (.inr ⟨⟨"decimal_t literal is not a run of digits", ?_⟩, fun heq => absurd heq hdot,
      fun d hd heq => ?_⟩)
    · rw [readChar, if_neg hdot, if_pos hrange]
      rfl
    · rw [heq] at hrange
      exact absurd hrange (digitChar_inRange hd)
  · obtain ⟨hc, hd⟩ := digitChar_sub hrange
    by_cases hroom : s.out.len = maxDigits
    · refine .inr (.inr ⟨⟨"decimal_t literal needs more digits than it holds", ?_⟩,
        fun heq => absurd heq hdot, fun _ _ _ => hroom⟩)
      rw [readChar, if_neg hdot, if_neg hrange, if_pos hroom]
      rfl
    · exact .inr (.inl ⟨_, hd, hc.symm, lt_of_le_of_ne h.fits hroom⟩)

/-- A round of the loop reads one character of a literal, or refuses it. -/
theorem readChar_step (h : Reads s whole fraction) (c : Char) :
    (∃ s' whole' fraction', readChar s c = .ok s' ∧ Reads s' whole' fraction' ∧
      spelled whole' fraction' = spelled whole fraction ++ [c]) ∨
    ∃ what, readChar s c = .error (.typeMismatch what) := by
  rcases readChar_cases h c with ⟨rfl, rfl⟩ | ⟨d, hd, rfl, hroom⟩ | ⟨herror, -, -⟩
  · obtain ⟨s', hread, hreads⟩ := readChar_point h
    exact .inl ⟨s', whole, some [], hread, hreads, by simp [spelled]⟩
  · obtain ⟨s', hread, hreads⟩ := readChar_digit h hd hroom
    exact .inl ⟨s', _, _, hread, hreads, spelled_withDigit whole fraction d⟩
  · exact .inr herror

theorem foldlM_readChar (h : Reads s whole fraction) (text : Text) :
    (∃ s' whole' fraction', text.foldlM readChar s = .ok s' ∧ Reads s' whole' fraction' ∧
      spelled whole' fraction' = spelled whole fraction ++ text) ∨
    ∃ what, text.foldlM readChar s = .error (.typeMismatch what) := by
  induction text generalizing s whole fraction with
  | nil => exact .inl ⟨s, whole, fraction, rfl, h, (List.append_nil _).symm⟩
  | cons c cs ih =>
    rw [List.foldlM_cons]
    rcases readChar_step h c with ⟨s₁, whole₁, fraction₁, hread, hreads, hspelled⟩ | ⟨what, hread⟩
    · rw [hread]
      rcases ih hreads with ⟨s', whole', fraction', hfold, hreads', hspelled'⟩ | hfail
      · exact .inl ⟨s', whole', fraction', hfold, hreads', by rw [hspelled', hspelled]; simp⟩
      · exact .inr hfail
    · rw [hread]
      exact .inr ⟨what, rfl⟩

end Reads

section Spelled
variable {whole whole' : List ℕ} {fraction fraction' : Option (List ℕ)}
  (hdigits : ∀ d ∈ whole ++ fraction.getD [], d < 10)
include hdigits

theorem mem_spelled {c : Char} (hc : c ∈ spelled whole fraction) :
    c = '.' ∨ ∃ d < 10, c = digitChar d := by
  cases fraction with
  | none =>
    simp only [spelled, Option.elim_none, List.append_nil, List.mem_map] at hc
    obtain ⟨d, hd, rfl⟩ := hc
    exact .inr ⟨d, hdigits d (List.mem_append_left _ hd), rfl⟩
  | some ds =>
    simp only [spelled, Option.elim_some, List.mem_append, List.mem_cons, List.mem_map] at hc
    rcases hc with ⟨d, hd, rfl⟩ | rfl | ⟨d, hd, rfl⟩
    · exact .inr ⟨d, hdigits d (List.mem_append_left _ hd), rfl⟩
    · exact .inl rfl
    · exact .inr ⟨d, hdigits d (List.mem_append_right _ hd), rfl⟩

omit hdigits in
theorem dot_notMem_map {ds : List ℕ} (h : ∀ d ∈ ds, d < 10) : '.' ∉ ds.map digitChar := by
  intro hmem
  obtain ⟨d, hd, heq⟩ := List.mem_map.mp hmem
  exact digitChar_ne (h d hd) (.inl (by decide)) heq

theorem count_spelled : (spelled whole fraction).count '.' = if fraction.isSome then 1 else 0 := by
  have hwhole := List.count_eq_zero.mpr (dot_notMem_map fun d hd => hdigits d (List.mem_append_left _ hd))
  cases fraction with
  | none =>
    rw [spelled, Option.elim_none, List.append_nil, hwhole]
    rfl
  | some ds =>
    have hds := List.count_eq_zero.mpr
      (dot_notMem_map fun d hd => hdigits d (List.mem_append_right whole hd))
    rw [spelled, Option.elim_some, List.count_append, hwhole, List.count_cons_self, Nat.zero_add]
    exact congrArg Nat.succ hds

omit hdigits in
theorem length_spelled : (spelled whole fraction).length =
    (whole ++ fraction.getD []).length + if fraction.isSome then 1 else 0 := by
  cases fraction <;> simp [spelled, Nat.add_assoc]

omit hdigits in
theorem map_digitChar_injOn {ds es : List ℕ} (hds : ∀ d ∈ ds, d < 10) (hes : ∀ e ∈ es, e < 10)
    (h : ds.map digitChar = es.map digitChar) : ds = es := by
  induction ds generalizing es with
  | nil => exact (List.map_eq_nil_iff.mp h.symm).symm
  | cons d ds ih =>
    cases es with
    | nil => cases h
    | cons e es =>
      obtain ⟨hd, hds'⟩ := List.forall_mem_cons.mp hds
      obtain ⟨he, hes'⟩ := List.forall_mem_cons.mp hes
      obtain ⟨hhead, htail⟩ := List.cons.inj h
      have hnat := congrArg Char.toNat hhead
      rw [toNat_digitChar hd, toNat_digitChar he] at hnat
      rw [Nat.add_left_cancel hnat, ih hds' hes' htail]

/-- What stands in front of the point. -/
theorem takeWhile_spelled :
    (spelled whole fraction).takeWhile (· != '.') = whole.map digitChar := by
  have hall : ∀ c ∈ whole.map digitChar, (c != '.') = true := by
    intro c hc
    rw [bne_iff_ne]
    rintro rfl
    exact dot_notMem_map (fun d hd => hdigits d (List.mem_append_left _ hd)) hc
  rw [spelled, List.takeWhile_append_of_pos hall]
  cases fraction with
  | none => rw [Option.elim_none, List.takeWhile_nil, List.append_nil]
  | some ds => rw [Option.elim_some, List.takeWhile_cons_of_neg (by decide), List.append_nil]

/-- A text is spelled by one literal only. -/
theorem spelled_inj (hdigits' : ∀ d ∈ whole' ++ fraction'.getD [], d < 10)
    (h : spelled whole fraction = spelled whole' fraction') : whole = whole' ∧ fraction = fraction' := by
  have hfront := takeWhile_spelled hdigits
  rw [h, takeWhile_spelled hdigits'] at hfront
  obtain rfl := map_digitChar_injOn (fun d hd => hdigits' d (List.mem_append_left _ hd))
    (fun d hd => hdigits d (List.mem_append_left _ hd)) hfront
  refine ⟨rfl, ?_⟩
  have hbehind := List.append_cancel_left h
  cases fraction with
  | none =>
    cases fraction' with
    | none => rfl
    | some ds' => cases hbehind
  | some ds =>
    cases fraction' with
    | none => cases hbehind
    | some ds' =>
      have hds : ds = ds' := map_digitChar_injOn (fun d hd => hdigits d (List.mem_append_right _ hd))
        (fun d hd => hdigits' d (List.mem_append_right _ hd)) (List.cons.inj hbehind).2
      rw [hds]

end Spelled

/-- The loop goes on to the end of a literal that there is room for. -/
theorem foldlM_readChar_ok {s : Scanning} {whole whole' : List ℕ} {fraction fraction' : Option (List ℕ)}
    (h : Reads s whole fraction) (hdigits : ∀ d ∈ whole' ++ fraction'.getD [], d < 10)
    (hroom : (whole' ++ fraction'.getD []).length ≤ maxDigits) {text : Text}
    (htext : spelled whole' fraction' = spelled whole fraction ++ text) :
    ∃ s', text.foldlM readChar s = .ok s' ∧ Reads s' whole' fraction' := by
  induction text generalizing s whole fraction with
  | nil =>
    obtain ⟨rfl, rfl⟩ := spelled_inj hdigits h.isDigit (htext.trans (List.append_nil _))
    exact ⟨s, rfl, h⟩
  | cons c cs ih =>
    have hcount := congrArg (List.count '.') htext
    rw [List.count_append, count_spelled hdigits, count_spelled h.isDigit] at hcount
    have hlength := congrArg List.length htext
    rw [List.length_append, length_spelled, length_spelled, List.length_cons] at hlength
    have hmem : c ∈ spelled whole' fraction' := by
      rw [htext]
      exact List.mem_append_right _ List.mem_cons_self
    have hgoes : ∀ {s₁ : Scanning} {whole₁ : List ℕ} {fraction₁ : Option (List ℕ)},
        readChar s c = .ok s₁ → Reads s₁ whole₁ fraction₁ →
          spelled whole₁ fraction₁ = spelled whole fraction ++ [c] →
            ∃ s', (c :: cs).foldlM readChar s = .ok s' ∧ Reads s' whole' fraction' := by
      intro s₁ whole₁ fraction₁ hread hreads hspelled
      rw [List.foldlM_cons, hread]
      exact ih hreads (by rw [htext, hspelled]; simp)
    rcases readChar_cases h c with ⟨rfl, rfl⟩ | ⟨d, hd, rfl, hlt⟩ | ⟨-, hdot, hfull⟩
    · obtain ⟨s₁, hread, hreads⟩ := readChar_point h
      exact hgoes hread hreads (by simp [spelled])
    · obtain ⟨s₁, hread, hreads⟩ := readChar_digit h hd hlt
      exact hgoes hread hreads (spelled_withDigit whole fraction d)
    · exfalso
      rcases mem_spelled hdigits hmem with rfl | ⟨d, hd, rfl⟩
      · -- a second point
        rw [List.count_cons_self, if_pos (Option.isSome_iff_ne_none.mpr (hdot rfl))] at hcount
        split_ifs at hcount
        omega
      · have hne : digitChar d ≠ '.' := digitChar_ne hd (.inl (by decide))
        have hlen := h.len
        rw [hfull d hd rfl] at hlen
        rw [List.count_cons_of_ne hne] at hcount
        have hle : cs.count '.' ≤ cs.length := List.count_le_length
        rw [List.length_append] at hlength hroom
        rw [List.length_append] at hlength
        omega

def integerOf (whole : List ℕ) : List ℕ := if whole = [] then [0] else whole

theorem integerOf_ne_nil (whole : List ℕ) : integerOf whole ≠ [] := by
  rw [integerOf]
  split_ifs with h
  · exact List.cons_ne_nil _ _
  · exact h

/-- What the digits are put into. -/
structure Holds (d : Decimal) (integer fraction : List ℕ) : Prop where
  used : d.used = integer ++ fraction
  len : d.len = (integer ++ fraction).length
  scale : d.scale = fraction.length

section Arranged
variable {s : Scanning} {whole : List ℕ} {fraction : Option (List ℕ)} (h : Reads s whole fraction)
include h

theorem withInteger_ok (hne : whole ++ fraction.getD [] ≠ [])
    (hroom : (integerOf whole ++ fraction.getD []).length ≤ maxDigits) :
    ∃ s', withInteger s = .ok s' ∧ Reads s' (integerOf whole) fraction := by
  by_cases hwhole : whole = []
  · subst hwhole
    have hinteger : integerOf [] = [0] := rfl
    rw [hinteger] at hroom ⊢
    have hlen : s.out.len = (fraction.getD []).length := by simpa using h.len
    have hnone : s.integerDigits = 0 := h.integers
    have hpos : s.out.len ≠ 0 := by
      rw [hlen]
      exact fun hzero => hne (List.length_eq_zero_iff.mp hzero)
    have hlt : s.out.len < maxDigits := by
      rw [hlen]
      rw [List.length_append, List.length_singleton, Nat.add_comm] at hroom
      exact hroom
    obtain ⟨digits₁, hshift, hdigits₁⟩ := shiftUp_spec hlt s.out.digits
    obtain ⟨digits₂, hput, hdigits₂⟩ := put_eq (k := 0) digits₁ (by decide) 0
    refine ⟨{ s with
      out := { s.out with digits := digits₂, len := s.out.len + 1 }
      integerDigits := 1 }, ?_, ?_⟩
    · rw [withInteger, if_pos hnone, if_neg hpos, if_neg hlt.ne, hshift]
      change (put digits₁ 0 0 >>= fun digits => _) = _
      rw [hput]
      rfl
    · have hused : digits₂.toList.take (s.out.len + 1) = [0] ++ fraction.getD [] := by
        have hdigits : s.out.digits.toList.take s.out.len = fraction.getD [] := by
          simpa [used] using h.used
        obtain ⟨x, hx⟩ : ∃ x, s.out.digits.toList.take 1 = [x] := ⟨_, take_succ_getD (by decide)⟩
        have hlength : (fraction.getD []).length = s.out.len := hlen.symm
        rw [hdigits₂, hdigits₁, hx, hdigits, List.append_assoc, List.singleton_append,
          List.set_cons_zero, List.take_succ_cons, List.take_append_of_le_length hlength.ge,
          List.take_of_length_le hlength.le]
        rfl
      refine ⟨hused, ?_, h.scale, h.point, rfl, hlt, ?_⟩
      · rw [List.length_singleton, ← hlen, Nat.add_comm]
      · intro d hd
        rcases List.mem_append.mp hd with hd | hd
        · rw [List.mem_singleton.mp hd]
          decide
        · exact h.isDigit d hd
  · rw [integerOf, if_neg hwhole]
    refine ⟨s, ?_, h⟩
    have hpos : s.integerDigits ≠ 0 := by
      rw [h.integers]
      exact fun hzero => hwhole (List.length_eq_zero_iff.mp hzero)
    rw [withInteger, if_neg hpos]
    rfl

theorem withInteger_error (hbad : whole ++ fraction.getD [] = [] ∨
    maxDigits < (integerOf whole ++ fraction.getD []).length) :
    ∃ what, withInteger s = .error (.typeMismatch what) := by
  have hlen := h.len
  have hwhole : whole = [] := by
    rcases hbad with hnil | hlt
    · exact (List.append_eq_nil_iff.mp hnil).1
    · by_contra hne
      rw [integerOf, if_neg hne, List.length_append, ← hlen] at hlt
      exact absurd h.fits (Nat.not_le_of_lt hlt)
  subst hwhole
  rw [List.length_nil, Nat.zero_add] at hlen
  have hnone : s.integerDigits = 0 := h.integers
  by_cases hzero : s.out.len = 0
  · refine ⟨"decimal_t literal holds no digits", ?_⟩
    rw [withInteger, if_pos hnone, if_pos hzero]
    rfl
  · refine ⟨"decimal_t literal needs more digits than it holds", ?_⟩
    have hfull : s.out.len = maxDigits := by
      rcases hbad with hnil | hlt
      · rw [List.nil_append] at hnil
        rw [hlen, hnil] at hzero
        exact absurd rfl hzero
      · have hinteger : (integerOf []).length = 1 := rfl
        rw [List.length_append, hinteger, ← hlen] at hlt
        have := h.fits
        omega
    rw [withInteger, if_pos hnone, if_neg hzero, if_pos hfull]
    rfl

/-- The integer part loses the zeros in front of it, and nothing else moves. -/
theorem arranged_spec (hne : whole ≠ []) (negative : Bool) : ∃ d, arranged negative s = .ok d ∧
    Holds d (trimZeros whole) (fraction.getD []) ∧
      d.negative = (negative && !(trimZeros whole ++ fraction.getD []).all (· == 0)) := by
  have hfits := h.fits
  have hlen := h.len
  have hused := h.used
  have hwhole : (s.out.digits.toList.drop 0).take whole.length = whole := by
    have hle : whole.length ≤ s.out.len := by omega
    have htake := congrArg (List.take whole.length) hused
    rw [used, List.take_take, min_eq_left hle, List.take_left] at htake
    exact htake
  obtain ⟨first, hfirst, hread, hdrop⟩ := firstDigit_spec hne hwhole (by omega)
  have hroom : first + (s.out.len - first) ≤ maxDigits := by omega
  obtain ⟨digits, hshift, hdigits⟩ := shiftDown_spec (le_refl first) hroom s.out.digits
  have hsplit : digits.toList.take (s.out.len - first) = trimZeros whole ++ fraction.getD [] := by
    rw [Nat.sub_self, Nat.zero_add, List.take_zero, List.nil_append] at hdigits
    rw [hdigits, ← hdrop, ← List.drop_append_of_le_length hfirst.le, ← hused, used, List.drop_take]
  have hlength : s.out.len - first = (trimZeros whole ++ fraction.getD []).length := by
    rw [← hdrop, List.length_append, List.length_drop]
    omega
  refine ⟨{ s.out with
    digits := digits
    len := s.out.len - first
    negative := negative && !(digits.toList.take (s.out.len - first)).all (· == 0) }, ?_, ?_, ?_⟩
  · rw [Nat.zero_add] at hread
    rw [arranged, h.integers, hread]
    change (shiftDown first (s.out.len - first) first s.out.digits >>= fun digits => _) = _
    rw [hshift]
    rfl
  · exact ⟨hsplit, hlength, h.scale⟩
  · rw [← hsplit]

end Arranged

end Decimal

end Uniorm.Value
