/-
  UniqueSelector.Text.Blank

  The characters with the Unicode property White_Space, and the texts made of
  them alone. A text node of that kind is no content of its element.
-/

namespace UniqueSelector.Text

/-- The twenty-five code points with the property White_Space, as closed ranges. -/
def whiteSpaceRanges : List (Nat × Nat) :=
  [(0x0009, 0x000D), (0x0020, 0x0020), (0x0085, 0x0085), (0x00A0, 0x00A0), (0x1680, 0x1680),
   (0x2000, 0x200A), (0x2028, 0x2029), (0x202F, 0x202F), (0x205F, 0x205F), (0x3000, 0x3000)]

/-- `c` has the property White_Space. -/
def isWhiteSpace (c : Char) : Bool :=
  whiteSpaceRanges.any fun (lo, hi) => lo ≤ c.toNat && c.toNat ≤ hi

/-- `s` holds white space only; the empty text does. -/
def isBlank (s : String) : Bool :=
  s.toList.all isWhiteSpace

end UniqueSelector.Text
