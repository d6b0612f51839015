/-
  UniqueSelector.Json.Magnitude

  Whether a decimal number is too large for a binary64 value. The number counts
  as the product of two binary64 values: its significand, of which as many
  digits count as fit in an unsigned 64-bit word, and a power of ten.
-/

import UniqueSelector.Text.Numeral

namespace UniqueSelector.Json

open Text

/-- The nearest number with at most 53 significant bits, of two the one with the even last bit. -/
def roundTo53 (n : Nat) : Nat :=
  let unit := 1 <<< (n.log2 + 1 - 53)
  let whole := n / unit
  let rest := 2 * (n % unit)
  if unit < rest || (unit == rest && whole % 2 == 1) then (whole + 1) * unit else whole * unit

/-- `start` continued by digits as long as it fits in a word, and how many digits are left. -/
def takeSignificand (start : Nat) : List Char → Nat × Nat
  | [] => (start, 0)
  | d :: ds =>
    let next := 10 * start + digitValue d
    if next < UInt64.size then takeSignificand next ds else (start, ds.length + 1)

/-- The number with these digits before and after the point, times a power of ten, rounds to
    infinity. -/
def overflows (whole fraction : List Char) (exponent : Int) : Bool :=
  let (upper, dropped) := takeSignificand 0 whole
  let (significand, unread) := takeSignificand upper fraction
  let exponent := exponent + dropped - (fraction.length - unread : Nat)
  -- From 309 on any significand but zero is too large; the bound below is the least product
  -- that rounds to infinity.
  significand != 0 && (309 ≤ exponent || (0 ≤ exponent &&
    1 <<< 1024 - 1 <<< 970 ≤ roundTo53 significand * roundTo53 (Nat.pow 10 exponent.toNat)))

end UniqueSelector.Json
