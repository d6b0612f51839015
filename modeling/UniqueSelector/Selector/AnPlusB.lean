/-
  UniqueSelector.Selector.AnPlusB

  Arithmetic progressions of child positions: every `step * n + offset` with
  `n` from zero upwards. Both numbers are signed 64-bit words, and so is every
  number met on the way: where a difference or a quotient is no such word, the
  position is not selected.

  * `Word.subtract?`, `Word.divide?`, `Word.remainder?` — arithmetic of words
    that gives nothing where there is no word to give.
  * `AnPlusB.selects` — the test of a position.
  * `AnPlusB.ofChars?` — the progression that a text denotes.
-/

import UniqueSelector.Text.Ascii
import UniqueSelector.Text.Numeral

namespace UniqueSelector

open Text

/-! ## Checked arithmetic -/

namespace Word

/-- The difference of two words, if it is a word. -/
def subtract? (x y : Int64) : Option Int64 :=
  word? (x.toInt - y.toInt)

/-- The quotient of two words, cut off towards zero, if there is one and it is a word. -/
def divide? (x y : Int64) : Option Int64 :=
  if y == 0 then none else word? (x.toInt.tdiv y.toInt)

/-- The remainder of two words, where they have a quotient. -/
def remainder? (x y : Int64) : Option Int64 :=
  (divide? x y).bind fun _ => word? (x.toInt.tmod y.toInt)

end Word

/-! ## Progressions -/

/-- The positions `step * n + offset` for `n ≥ 0`. -/
structure AnPlusB where
  step : Int64
  offset : Int64
  deriving Repr, DecidableEq

namespace AnPlusB

/-- `index` is one of the positions, as far as words can tell. -/
def selects (p : AnPlusB) (index : Int64) : Bool :=
  match Word.subtract? index p.offset with
  | none => false
  | some distance =>
    if p.step == 0 then distance == 0
    else Word.remainder? distance p.step == some 0
      && (Word.divide? distance p.step).any (0 ≤ ·)

/-- The step, as it stands before the `n`: a bare sign, or nothing, is one. -/
def stepOf? : List Char → Option Int64
  | [] => some 1
  | ['+'] => some 1
  | ['-'] => some (-1)
  | s => integer? s

/-- The offset, as it stands after the `n`: nothing is zero, and a sign is needed. -/
def offsetOf? : List Char → Option Int64
  | [] => some 0
  | c :: cs => if c == '+' || c == '-' then integer? (c :: cs) else none

/-- The progression that a text denotes. Blanks do not count, nor does the case of letters. -/
def ofChars? (argument : List Char) : Option AnPlusB :=
  -- Blanks go first, so that those inside a number join its digits.
  let text := (argument.filter (!isSpace ·)).map Char.toLower
  if text == "odd".toList then some ⟨2, 1⟩
  else if text == "even".toList then some ⟨2, 0⟩
  else if text.contains 'n' then do
    let step ← stepOf? (text.takeWhile (· != 'n'))
    let offset ← offsetOf? ((text.dropWhile (· != 'n')).drop 1)
    pure ⟨step, offset⟩
  else (integer? text).map (⟨0, ·⟩)

end AnPlusB

end UniqueSelector
