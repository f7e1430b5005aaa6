import Uniorm.Libpq.Fetch

/-! # The hex form of a byte string

`bytes_of` walks over its text by an index. Here the walk is told with its
accesses, each of which fails where the index is not below the length, and the
texts it accepts are told by the digits they are made of.
-/
namespace Uniorm.Libpq

/-- The byte at an index. An access behind the end is an `overrun`. -/
def byteAt (text : List UInt8) (index : ℕ) : Except ReadError UInt8 :=
  match text[index]? with
  | some byte => .ok byte
  | none => .error .overrun

def bytesFrom (text : List UInt8) (index : ℕ) : Except ReadError (List UInt8) :=
  if index + 1 < text.length then do
    let high ← byteAt text index
    let low ← byteAt text (index + 1)
    match hexValue high, hexValue low with
    | some high, some low => do
      let bytes ← bytesFrom text (index + 2)
      pure (UInt8.ofNat (high * 16 + low) :: bytes)
    | _, _ => .error .notHex
  else .ok []
termination_by text.length - index

/-- `bytes_of` as it goes over the text. The length is asked first: a short text is not looked
at, and nothing is subtracted from its length. -/
def readBytesOf (text : List UInt8) (hexForm : Bool) : Except ReadError (List UInt8) :=
  if !hexForm then .ok text
  else if text.length < 2 then .error .notHexForm
  else do
    let first ← byteAt text 0
    if first ≠ 92 then .error .notHexForm
    else
      let second ← byteAt text 1
      if second ≠ 120 ∨ (text.length - 2) % 2 ≠ 0 then .error .notHexForm
      else bytesFrom text 2

theorem byteAt_of_lt {text : List UInt8} {index : ℕ} (h : index < text.length) :
    byteAt text index = .ok text[index] := by simp [byteAt, h]

theorem bytesFrom_eq (text : List UInt8) (index : ℕ) :
    bytesFrom text index = bytesOfDigits (text.drop index) := by
  fun_induction bytesFrom text index with
  | case1 index hlt ih =>
    have hdrop : text.drop index = text[index] :: text[index + 1] :: text.drop (index + 2) := by
      rw [List.drop_eq_getElem_cons (Nat.lt_of_succ_lt hlt), List.drop_eq_getElem_cons hlt]
    rw [hdrop, bytesOfDigits, byteAt_of_lt (Nat.lt_of_succ_lt hlt), byteAt_of_lt hlt]
    cases hhigh : hexValue text[index] with
    | none => simp [bind, Except.bind, hhigh]
    | some high =>
      cases hlow : hexValue text[index + 1] with
      | none => simp [bind, Except.bind, hhigh, hlow]
      | some low => simp [bind, Except.bind, hhigh, hlow, ih]
  | case2 index hlt =>
    have hshort : (text.drop index).length ≤ 1 := by
      rw [List.length_drop]
      omega
    cases hdrop : text.drop index with
    | nil => rfl
    | cons byte more =>
      cases more with
      | nil => rfl
      | cons next more => simp [hdrop] at hshort

theorem readBytesOf_eq (text : List UInt8) (hexForm : Bool) :
    readBytesOf text hexForm = bytesOf text hexForm := by
  cases hexForm with
  | false => rfl
  | true =>
    match text with
    | [] => rfl
    | [byte] => simp [readBytesOf, bytesOf]
    | first :: second :: digits =>
      have hparity : (first :: second :: digits).length - 2 = digits.length := rfl
      have hfrom : bytesFrom (first :: second :: digits) 2 = bytesOfDigits digits :=
        bytesFrom_eq _ 2
      by_cases hfirst : first = 92
      · by_cases hsecond : second = 120
        · subst hfirst hsecond
          by_cases heven : digits.length % 2 = 0
          · simp [readBytesOf, bytesOf, byteAt, bind, Except.bind, heven, hfrom]
          · simp [readBytesOf, bytesOf, byteAt, bind, Except.bind, heven]
        · simp [readBytesOf, bytesOf, byteAt, bind, Except.bind, hfirst, hsecond]
      · simp [readBytesOf, bytesOf, byteAt, bind, Except.bind, hfirst]

def lowerDigits : List UInt8 := "0123456789abcdef".toList.map fun c => UInt8.ofNat c.toNat

def upperDigits : List UInt8 := "0123456789ABCDEF".toList.map fun c => UInt8.ofNat c.toNat

def IsDigit (c : UInt8) (value : ℕ) : Prop :=
  lowerDigits[value]? = some c ∨ upperDigits[value]? = some c

/-- Digits and the bytes they denote, the high half of a byte first. -/
inductive Denotes : List UInt8 → List UInt8 → Prop where
  | nil : Denotes [] []
  | byte {high low : UInt8} {h l : ℕ} {digits bytes : List UInt8} (hhigh : IsDigit high h)
    (hlow : IsDigit low l) (hmore : Denotes digits bytes) :
    Denotes (high :: low :: digits) (UInt8.ofNat (16 * h + l) :: bytes)

theorem hexValue_digits : ∀ i : Fin 16, hexValue lowerDigits[i] = some i ∧
    hexValue upperDigits[i] = some i := by decide +kernel

theorem hexValue_isDigit {c : UInt8} {value : ℕ} (h : hexValue c = some value) :
    IsDigit c value := by
  have hall : ∀ i : Fin 256, ∀ value ∈ hexValue (UInt8.ofNat i), lowerDigits[value]? =
      some (UInt8.ofNat i) ∨
      upperDigits[value]? = some (UInt8.ofNat i) := by decide +kernel
  have hc := hall ⟨c.toNat, c.toNat_lt⟩ value
  simp only [UInt8.ofNat_toNat] at hc
  exact hc h

theorem hexValue_eq_some_iff (c : UInt8) (value : ℕ) : hexValue c = some value ↔ IsDigit c value := by
  constructor
  · exact hexValue_isDigit
  · rintro (h | h)
    · obtain ⟨hlt, rfl⟩ := List.getElem?_eq_some_iff.mp h
      exact (hexValue_digits ⟨value, hlt⟩).1
    · obtain ⟨hlt, rfl⟩ := List.getElem?_eq_some_iff.mp h
      exact (hexValue_digits ⟨value, hlt⟩).2

/-- The pairs of digits are read as the bytes they denote, and only where all are digits. -/
theorem bytesOfDigits_eq_ok_iff {digits bytes : List UInt8} (heven : digits.length % 2 = 0) :
    bytesOfDigits digits = .ok bytes ↔ Denotes digits bytes := by
  fun_induction bytesOfDigits digits generalizing bytes with
  | case1 high low rest h l hlow hhigh ih =>
    have hrest : rest.length % 2 = 0 := by
      simp only [List.length_cons] at heven
      omega
    constructor
    · intro hread
      cases hbytes : bytesOfDigits rest with
      | error e => simp [hbytes, bind, Except.bind] at hread
      | ok read =>
        rw [hbytes] at hread
        obtain rfl := Except.ok.inj hread
        rw [Nat.mul_comm]
        exact .byte ((hexValue_eq_some_iff _ _).mp hhigh) ((hexValue_eq_some_iff _ _).mp hlow)
          ((ih hrest).mp hbytes)
    · intro hdenotes
      cases hdenotes with
      | @byte _ _ h' l' _ bytes hhigh' hlow' hmore =>
        have hh : h = h' :=
          Option.some.inj (hhigh.symm.trans ((hexValue_eq_some_iff _ _).mpr hhigh'))
        have hl : l = l' := Option.some.inj (hlow.symm.trans ((hexValue_eq_some_iff _ _).mpr hlow'))
        rw [(ih hrest).mpr hmore, ← hh, ← hl, Nat.mul_comm 16]
        rfl
  | case2 high low rest hnone =>
    constructor
    · intro hread
      cases hread
    · intro hdenotes
      cases hdenotes with
      | byte hhigh hlow _ =>
        exact absurd ((hexValue_eq_some_iff _ _).mpr hlow)
          (hnone _ _ ((hexValue_eq_some_iff _ _).mpr hhigh))
  | case3 digits hshort =>
    cases digits with
    | nil =>
      constructor
      · intro hread
        obtain rfl := Except.ok.inj hread
        exact .nil
      · intro hdenotes
        cases hdenotes
        rfl
    | cons high more =>
      cases more with
      | nil => cases heven
      | cons low rest => exact absurd rfl (hshort high low rest)

theorem Denotes.even {digits bytes : List UInt8} (h : Denotes digits bytes) :
    digits.length % 2 = 0 := by
  induction h with
  | nil => rfl
  | byte hhigh hlow hmore ih =>
    simp only [List.length_cons]
    omega

theorem exists_denotes : ∀ digits : List UInt8, digits.length % 2 = 0 →
    (∀ c ∈ digits, ∃ value, IsDigit c value) → ∃ bytes, Denotes digits bytes
  | [], _, _ => ⟨[], .nil⟩
  | [_], heven, _ => by cases heven
  | high :: low :: rest, heven, hall => by
    obtain ⟨h, hhigh⟩ := hall high (by simp)
    obtain ⟨l, hlow⟩ := hall low (by simp)
    have hrest : rest.length % 2 = 0 := by
      simp only [List.length_cons] at heven
      omega
    obtain ⟨bytes, hbytes⟩ := exists_denotes rest hrest fun c hc => hall c (by simp [hc])
    exact ⟨_, .byte hhigh hlow hbytes⟩

theorem exists_denotes_iff (digits : List UInt8) : (∃ bytes, Denotes digits bytes) ↔
    digits.length % 2 = 0 ∧ ∀ c ∈ digits, ∃ value, IsDigit c value := by
  constructor
  · rintro ⟨bytes, h⟩
    refine ⟨h.even, ?_⟩
    induction h with
    | nil => simp
    | byte hhigh hlow hmore ih => simpa using ⟨⟨_, hhigh⟩, ⟨_, hlow⟩, ih⟩
  · rintro ⟨heven, hall⟩
    exact exists_denotes digits heven hall

theorem bytesOf_eq_ok_iff (text bytes : List UInt8) : bytesOf text true = .ok bytes ↔
    ∃ digits, text = 92 :: 120 :: digits ∧ Denotes digits bytes := by
  constructor
  · intro hread
    match text with
    | [] => cases hread
    | [_] => simp [bytesOf] at hread
    | first :: second :: digits =>
      by_cases hfirst : first = 92
      · by_cases hsecond : second = 120
        · subst hfirst hsecond
          by_cases heven : digits.length % 2 = 0
          · simp only [bytesOf, heven, if_true] at hread
            exact ⟨digits, rfl, (bytesOfDigits_eq_ok_iff heven).mp hread⟩
          · simp [bytesOf, heven] at hread
        · simp [bytesOf, hsecond] at hread
      · simp [bytesOf, hfirst] at hread
  · rintro ⟨digits, rfl, hdenotes⟩
    simp only [bytesOf, hdenotes.even, if_true]
    exact (bytesOfDigits_eq_ok_iff hdenotes.even).mpr hdenotes

/-- The hex form of bytes is read as the bytes. A text is read if it is a backslash, an `x` and an
even number of hexadecimal digits, as the bytes they denote; every other one is refused, and no text
is read behind its end. -/
theorem bytea_text_exact :
    (∀ bytes, readBytesOf (hexTextOf bytes) true = .ok bytes) ∧
    (∀ text bytes, readBytesOf text true = .ok bytes ↔
      ∃ digits, text = 92 :: 120 :: digits ∧ Denotes digits bytes) ∧
    (∀ text, (∃ bytes, readBytesOf text true = .ok bytes) ↔
      ∃ digits, text = 92 :: 120 :: digits ∧ digits.length % 2 = 0 ∧
        ∀ c ∈ digits, ∃ value, IsDigit c value) ∧
    ∀ text, readBytesOf text true ≠ .error .overrun := by
  refine ⟨fun bytes => ?_, fun text bytes => ?_, fun text => ?_, fun text => ?_⟩
  · rw [readBytesOf_eq, bytesOf_hexTextOf]
  · rw [readBytesOf_eq, bytesOf_eq_ok_iff]
  · simp only [readBytesOf_eq, bytesOf_eq_ok_iff]
    rw [exists_comm]
    refine exists_congr fun digits => ?_
    rw [exists_and_left, exists_denotes_iff]
  · rw [readBytesOf_eq]
    exact bytesOf_ne_overrun

end Uniorm.Libpq
