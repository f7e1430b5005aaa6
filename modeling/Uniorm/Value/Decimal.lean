import Mathlib.Data.Rat.Defs
import Uniorm.Foundation.Digits
import Uniorm.Sql.Token

/-! # Exact decimals

A decimal keeps its digits in an array of fixed size, with the count of those in
use, of those among them behind the point, and a sign. A literal is read into it
in one pass, and what it writes back is put in order within the array.
-/
namespace Uniorm.Value

open Foundation Sql

namespace Decimal

def maxDigits : ℕ := 78

abbrev Digits := Vector ℕ maxDigits

end Decimal

/-- `decimal_t`. -/
structure Decimal where
  digits : Decimal.Digits := Vector.replicate Decimal.maxDigits 0
  len : ℕ := 1
  scale : ℕ := 0
  negative : Bool := false
  deriving DecidableEq, Repr

namespace Decimal

inductive Fault where
  | typeMismatch (what : String)
  /-- An access outside the array. -/
  | outside
  deriving DecidableEq, Repr

def get (digits : Digits) (k : ℕ) : Except Fault ℕ :=
  if h : k < maxDigits then .ok digits[k] else .error .outside

def put (digits : Digits) (k value : ℕ) : Except Fault Digits :=
  if h : k < maxDigits then .ok (digits.set k value h) else .error .outside

/-- What the loop over the characters keeps. -/
structure Scanning where
  out : Decimal := { len := 0 }
  afterPoint : Bool := false
  integerDigits : ℕ := 0
  deriving DecidableEq, Repr

def readChar (s : Scanning) (c : Char) : Except Fault Scanning := do
  if c = '.' then
    if s.afterPoint then throw (.typeMismatch "decimal_t literal has two radix points")
    else pure { s with afterPoint := true }
  else if c < '0' ∨ '9' < c then throw (.typeMismatch "decimal_t literal is not a run of digits")
  else if s.out.len = maxDigits then
    throw (.typeMismatch "decimal_t literal needs more digits than it holds")
  else
    let digits ← put s.out.digits s.out.len (c.toNat - '0'.toNat)
    let out := { s.out with digits := digits, len := s.out.len + 1 }
    if s.afterPoint then pure { s with out := { out with scale := out.scale + 1 } }
    else pure { s with out := out, integerDigits := s.integerDigits + 1 }

/-- Every digit below `count` moves up by one, the last one first. -/
def shiftUp : ℕ → Digits → Except Fault Digits
  | 0, digits => pure digits
  | k + 1, digits => do
    let digit ← get digits k
    let digits ← put digits (k + 1) digit
    shiftUp k digits

def withInteger (s : Scanning) : Except Fault Scanning := do
  if s.integerDigits = 0 then
    if s.out.len = 0 then throw (.typeMismatch "decimal_t literal holds no digits")
    else if s.out.len = maxDigits then
      throw (.typeMismatch "decimal_t literal needs more digits than it holds")
    else
      let digits ← shiftUp s.out.len s.out.digits
      let digits ← put digits 0 0
      pure { s with out := { s.out with digits := digits, len := s.out.len + 1 }, integerDigits := 1 }
  else pure s

/-- The first of `count` digits from `first` on that is not zero, or the one behind them. -/
def firstDigit (digits : Digits) : ℕ → ℕ → Except Fault ℕ
  | 0, first => pure first
  | count + 1, first => do
    let digit ← get digits first
    if digit = 0 then firstDigit digits count (first + 1) else pure first

/-- The `count` digits from `k` on move down by `first`. -/
def shiftDown (first : ℕ) : ℕ → ℕ → Digits → Except Fault Digits
  | 0, _, digits => pure digits
  | count + 1, k, digits => do
    let digit ← get digits k
    let digits ← put digits (k - first) digit
    shiftDown first count (k + 1) digits

def used (d : Decimal) : List ℕ := d.digits.toList.take d.len

/-- The digits without the zeros in front of the integer part. -/
def arranged (negative : Bool) (s : Scanning) : Except Fault Decimal := do
  let first ← firstDigit s.out.digits (s.integerDigits - 1) 0
  let digits ← shiftDown first (s.out.len - first) first s.out.digits
  let out := { s.out with digits := digits, len := s.out.len - first }
  -- a negated zero would order itself below every positive scale of zero
  pure { out with negative := negative && !out.used.all (· == 0) }

/-- What is read behind the sign. -/
def fromUnsigned (negative : Bool) (text : Text) : Except Fault Decimal := do
  let s ← text.foldlM readChar {}
  let s ← withInteger s
  arranged negative s

def fromLiteral (text : Text) : Except Fault Decimal :=
  match text with
  | '-' :: cs => fromUnsigned true cs
  | '+' :: cs => fromUnsigned false cs
  | cs => fromUnsigned false cs

def integerLen (d : Decimal) : ℕ := d.len - d.scale

def digit (d : Decimal) (k : ℕ) : ℕ := d.digits.toList.getD k 0

def digitChar (digit : ℕ) : Char := Char.ofNat ('0'.toNat + digit)

def toLiteral (d : Decimal) : Text :=
  (if d.negative then ['-'] else []) ++
    (List.range d.integerLen).map (fun i => digitChar (d.digit i)) ++
    if 0 < d.scale then
      '.' :: (List.range' d.integerLen d.scale).map fun i => digitChar (d.digit i)
    else []

def value (d : Decimal) : ℚ :=
  (if d.negative then -1 else 1) * number 10 d.used / 10 ^ d.scale

/-- The first of `count` places where two runs of digits differ. -/
def compareRun (a b : ℕ → ℕ) : ℕ → ℕ → Ordering
  | 0, _ => .eq
  | count + 1, i =>
    if a i ≠ b i then if a i < b i then .lt else .gt else compareRun a b count (i + 1)

def firstOf (d : Decimal) : ℕ → ℕ → ℕ
  | 0, first => first
  | count + 1, first => if d.digit first = 0 then d.firstOf count (first + 1) else first

def integerFirst (d : Decimal) : ℕ := d.firstOf (d.integerLen - 1) 0

/-- A digit behind the point, a zero behind the last one. -/
def fractionDigit (d : Decimal) (i : ℕ) : ℕ :=
  if i < d.scale then d.digit (d.integerLen + i) else 0

def compareMagnitude (a o : Decimal) : Ordering :=
  let aFirst := a.integerFirst
  let bFirst := o.integerFirst
  let aLen := a.integerLen - aFirst
  let bLen := o.integerLen - bFirst
  if aLen ≠ bLen then if aLen < bLen then .lt else .gt
  else
    let whole := compareRun (fun i => a.digit (aFirst + i)) (fun i => o.digit (bFirst + i)) aLen 0
    if whole ≠ .eq then whole
    else compareRun a.fractionDigit o.fractionDigit (max a.scale o.scale) 0

/-- `operator<=>`. -/
def order (lhs rhs : Decimal) : Ordering :=
  if lhs.negative ≠ rhs.negative then if lhs.negative then .lt else .gt
  else
    let magnitude := lhs.compareMagnitude rhs
    if magnitude = .eq then .eq
    else if (magnitude == .lt) != lhs.negative then .lt
    else .gt

/-- `operator==`. -/
def equal (lhs rhs : Decimal) : Bool := lhs.order rhs == .eq

/-- One step of the sum, refused where it would not fit. -/
def addDigit (magnitude : UInt64) (digit : ℕ) : Except Fault UInt64 :=
  if (18446744073709551615 - UInt64.ofNat digit) / 10 < magnitude then
    throw (.typeMismatch "decimal_t value is out of int64 range")
  else pure (magnitude * 10 + UInt64.ofNat digit)

def toInt64 (d : Decimal) : Except Fault Int64 := do
  if (List.range' d.integerLen d.scale).any fun i => d.digit i != 0 then
    throw (.typeMismatch "decimal_t value has a fraction to drop")
  let magnitude ← ((List.range d.integerLen).map d.digit).foldlM addDigit 0
  let limit : UInt64 := if d.negative then (1 : UInt64) <<< (63 : UInt64) else 9223372036854775807
  if limit < magnitude then throw (.typeMismatch "decimal_t value is out of int64 range")
  else pure (if d.negative then (~~~magnitude + 1).toInt64 else magnitude.toInt64)

end Decimal

end Uniorm.Value
