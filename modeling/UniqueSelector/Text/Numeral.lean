/-
  UniqueSelector.Text.Numeral

  Decimal numerals with an optional sign, read into a machine word. The digits
  are ASCII, leading zeros do not matter, at least one digit is needed, and a
  value outside the word is no numeral.

  * `digits?` — an unsigned run of digits, of any size.
  * `natural?` — an optional `+` and a value below `2 ^ 64`.
  * `integer?` — an optional `+` or `-` and a value from `-2 ^ 63` to `2 ^ 63 - 1`.
-/

namespace UniqueSelector.Text

/-- The value of an ASCII digit. -/
def digitValue (c : Char) : Nat :=
  c.toNat - '0'.toNat

/-- The number that a list of digits denotes, most significant first. -/
def decimalValue (s : List Char) : Nat :=
  s.foldl (fun n c => 10 * n + digitValue c) 0

/-- The value of a non-empty list of ASCII digits. -/
def digits? (s : List Char) : Option Nat :=
  if !s.isEmpty && s.all Char.isDigit then some (decimalValue s) else none

/-- An optional `+`, then digits whose value fits in an unsigned word. -/
def natural? (s : List Char) : Option Nat :=
  let digits := match s with
    | '+' :: r => r
    | s => s
  (digits? digits).filter (· < UInt64.size)

/-- `n` as a signed word, if it is in range. -/
def word? (n : Int) : Option Int64 :=
  if Int64.minValue.toInt ≤ n ∧ n ≤ Int64.maxValue.toInt then some (Int64.ofInt n) else none

/-- An optional sign, then digits whose signed value fits in a signed word. -/
def integer? (s : List Char) : Option Int64 :=
  match s with
  | '-' :: r => (digits? r).bind fun n => word? (-n)
  | '+' :: r => (digits? r).bind fun n => word? n
  | s => (digits? s).bind fun n => word? n

end UniqueSelector.Text
