import Mathlib.Data.List.Basic
import Mathlib.Data.List.TakeWhile
import Mathlib.Tactic.Common
import Mathlib.Tactic.Ring

/-! # Bytes and memory

Numbers as sequences of bytes, least significant byte first, a memory in which sequences of bytes are
stored and loaded, and texts that end at a NUL.
-/
namespace Uniorm.Foundation

/-- The `width` low bytes of a number. -/
def toLittleEndian : ℕ → ℕ → List UInt8
  | 0, _ => []
  | width + 1, n => UInt8.ofNat n :: toLittleEndian width (n / 256)

def fromLittleEndian : List UInt8 → ℕ
  | [] => 0
  | byte :: bytes => byte.toNat + 256 * fromLittleEndian bytes

@[simp] theorem length_toLittleEndian (width n : ℕ) : (toLittleEndian width n).length = width := by
  induction width generalizing n with
  | zero => rfl
  | succ width ih => rw [toLittleEndian, List.length_cons, ih]

theorem fromLittleEndian_toLittleEndian_mod (width n : ℕ) :
    fromLittleEndian (toLittleEndian width n) = n % 256 ^ width := by
  induction width generalizing n with
  | zero =>
    rw [pow_zero, Nat.mod_one]
    rfl
  | succ width ih =>
    have hbyte : (UInt8.ofNat n).toNat = n % 256 := UInt8.toNat_ofNat'
    rw [toLittleEndian, fromLittleEndian, ih, hbyte, pow_succ', Nat.mod_mul]

theorem fromLittleEndian_toLittleEndian {width n : ℕ} (h : n < 256 ^ width) :
    fromLittleEndian (toLittleEndian width n) = n := by
  rw [fromLittleEndian_toLittleEndian_mod, Nat.mod_eq_of_lt h]

theorem ofNat_fromLittleEndian {width w : ℕ} (h : 2 ^ w ≤ 256 ^ width) (word : BitVec w) :
    BitVec.ofNat w (fromLittleEndian (toLittleEndian width word.toNat)) = word := by
  rw [fromLittleEndian_toLittleEndian (lt_of_lt_of_le word.isLt h), BitVec.ofNat_toNat,
    BitVec.setWidth_eq]

def packFields : List (ℕ × ℕ) → List UInt8
  | [] => []
  | (width, n) :: fields => toLittleEndian width n ++ packFields fields

def unpackFields : List ℕ → List UInt8 → List ℕ
  | [], _ => []
  | width :: widths, bytes =>
    fromLittleEndian (bytes.take width) :: unpackFields widths (bytes.drop width)

theorem unpackFields_packFields {fields : List (ℕ × ℕ)} (h : ∀ f ∈ fields, f.2 < 256 ^ f.1) :
    unpackFields (fields.map Prod.fst) (packFields fields) = fields.map Prod.snd := by
  induction fields with
  | nil => rfl
  | cons f fields ih =>
    have hlen := length_toLittleEndian f.1 f.2
    have hfirst := fromLittleEndian_toLittleEndian (h f List.mem_cons_self)
    rw [List.map_cons, List.map_cons, packFields, unpackFields, List.take_left' hlen,
      List.drop_left' hlen, hfirst, ih fun g hg => h g (List.mem_cons_of_mem f hg)]

abbrev Memory : Type := ℕ → UInt8

namespace Memory
variable (m : Memory)

def store (address : ℕ) (bytes : List UInt8) : Memory := fun a =>
  if h : address ≤ a ∧ a - address < bytes.length then bytes.get ⟨a - address, h.2⟩ else m a

def load (address count : ℕ) : List UInt8 := (List.range count).map fun i => m (address + i)

@[simp] theorem length_load (address count : ℕ) : (m.load address count).length = count := by
  simp [load]

theorem load_store_self (address : ℕ) (bytes : List UInt8) :
    (m.store address bytes).load address bytes.length = bytes := by
  apply List.ext_getElem
  · rw [length_load]
  · intro i hi hbytes
    have hinside : address ≤ address + i ∧ i < bytes.length := ⟨Nat.le_add_right _ _, hbytes⟩
    simp only [load, List.getElem_map, List.getElem_range, store, Nat.add_sub_cancel_left,
      List.get_eq_getElem]
    rw [dif_pos hinside]

/-- A store leaves the bytes outside its range alone. -/
theorem load_store_of_disjoint {address address' count : ℕ} {bytes : List UInt8}
    (h : address' + count ≤ address ∨ address + bytes.length ≤ address') :
    (m.store address bytes).load address' count = m.load address' count := by
  apply List.map_congr_left
  intro i hi
  have hlt := List.mem_range.mp hi
  have houtside : ¬(address ≤ address' + i ∧ address' + i - address < bytes.length) := by omega
  rw [store, dif_neg houtside]

end Memory

/-- The bytes before the first NUL, as `strlen` counts them. -/
def cString (bytes : List UInt8) : List UInt8 := bytes.takeWhile (· != 0)

theorem cString_eq_self_iff {bytes : List UInt8} : cString bytes = bytes ↔ (0 : UInt8) ∉ bytes := by
  rw [cString, List.takeWhile_eq_self_iff]
  constructor
  · intro h hmem
    simpa using h 0 hmem
  · intro h b hb
    simp only [bne_iff_ne]
    rintro rfl
    exact h hb

theorem cString_length_le (bytes : List UInt8) : (cString bytes).length ≤ bytes.length :=
  (List.takeWhile_prefix _).length_le

end Uniorm.Foundation
