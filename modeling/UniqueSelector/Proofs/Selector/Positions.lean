/-
  UniqueSelector.Proofs.Selector.Positions

  Which positions a progression selects. Over the whole numbers these are the
  offset and all that the step leads to from it. The test has words only, and
  gives up in two places: where the distance of the position from the offset is no
  word, and where the quotient of that distance and the step is none.

    * `AnPlusB.Denotes` — the positions of a progression, over the whole numbers.
    * `Word.subtract`, `Word.divide`, `Word.remainder` — arithmetic of words that
      faults where a result is not the number it stands for, or a divisor is zero.
    * `Word.checkedSubtract_eq`, `Word.checkedDivide_eq`, `Word.checkedRemainder_eq`
      — behind a guard none of them faults, and they are the operations of the test.
    * `AnPlusB.selectsInWords` — the test in that arithmetic.
    * `AnPlusB.selects_exact` — no input faults, and where the answer is the one of
      the whole numbers.

  There is one quotient of words that is no word, that of the least word and -1
  (`word?_tdiv`); every other corner is a distance out of range.
-/

import UniqueSelector.Proofs.Text.Digits
import UniqueSelector.Selector.AnPlusB

namespace UniqueSelector

open Text

/-! ## Words and their numbers -/

namespace Text

/-- A difference that is a word is the difference of the words. -/
theorem eq_sub_of_word? {x y d : Int64} (h : word? (x.toInt - y.toInt) = some d) : d = x - y := by
  have hd := toInt_of_word? h
  have hlower : -2 ^ 63 ≤ d.toInt := Int64.le_toInt d
  have hupper : d.toInt < 2 ^ 63 := Int64.toInt_lt d
  apply Int64.toInt_inj.mp
  rw [Int64.toInt_sub, ← hd]
  exact (Int.bmod_eq_of_le (by omega) (by omega)).symm

/-- The quotient of two words is a word, but for the least one by -1. -/
theorem word?_tdiv {x y : Int64} (h : ¬ (x = Int64.minValue ∧ y = -1)) :
    word? (x.toInt.tdiv y.toInt) = some (x / y) := by
  rw [word?_eq_some_iff]
  by_cases hx : x = Int64.minValue
  · exact Int64.toInt_div_of_ne_right x y fun hy => h ⟨hx, hy⟩
  · exact Int64.toInt_div_of_ne_left x y hx

end Text

/-! ## Arithmetic that faults -/

/-- What goes wrong in the arithmetic of words. -/
inductive WordFault where
  | overflow
  | zeroDivisor
  deriving Repr, DecidableEq

namespace Word

/-- A word, if it is the number that it stands for. -/
def exactly (w : Int64) (n : Int) : Except WordFault Int64 :=
  if w.toInt = n then .ok w else .error .overflow

/-- The difference of two words. -/
def subtract (x y : Int64) : Except WordFault Int64 :=
  exactly (x - y) (x.toInt - y.toInt)

/-- The quotient of two words, cut off towards zero. -/
def divide (x y : Int64) : Except WordFault Int64 :=
  if y = 0 then .error .zeroDivisor else exactly (x / y) (x.toInt.tdiv y.toInt)

/-- The remainder of two words. It is worked out with their quotient, and faults with it. -/
def remainder (x y : Int64) : Except WordFault Int64 :=
  (divide x y).map fun _ => x % y

/-- The words have a quotient: the divisor is not zero, and they are not the least word and -1. -/
def Divisible (x y : Int64) : Prop :=
  y ≠ 0 ∧ ¬ (x = Int64.minValue ∧ y = -1)

instance (x y : Int64) : Decidable (Divisible x y) :=
  inferInstanceAs (Decidable (y ≠ 0 ∧ ¬ (x = Int64.minValue ∧ y = -1)))

/-- An operation behind a guard: it is carried out only where the guard holds. -/
def guarded (guard : Prop) [Decidable guard] (operation : Except WordFault Int64) :
    Except WordFault (Option Int64) :=
  if guard then operation.map some else .ok none

/-- The difference, where it is in the range of words. -/
def checkedSubtract (x y : Int64) : Except WordFault (Option Int64) :=
  guarded (-2 ^ 63 ≤ x.toInt - y.toInt ∧ x.toInt - y.toInt ≤ 2 ^ 63 - 1) (subtract x y)

/-- The quotient, where there is one. -/
def checkedDivide (x y : Int64) : Except WordFault (Option Int64) :=
  guarded (Divisible x y) (divide x y)

/-- The remainder, where there is one. -/
def checkedRemainder (x y : Int64) : Except WordFault (Option Int64) :=
  guarded (Divisible x y) (remainder x y)

section Checked

variable {x y : Int64}

theorem divide?_of_divisible (h : Divisible x y) : divide? x y = some (x / y) := by
  rw [divide?, if_neg (by simpa using h.1), word?_tdiv h.2]

theorem divide?_of_not_divisible (h : ¬ Divisible x y) : divide? x y = none := by
  by_cases hzero : y = 0
  · rw [divide?, if_pos (by simpa using hzero)]
  · have hcorner : x = Int64.minValue ∧ y = -1 := by
      by_contra hno
      exact h ⟨hzero, hno⟩
    rw [hcorner.1, hcorner.2]
    decide

theorem remainder?_of_divisible (h : Divisible x y) : remainder? x y = some (x % y) := by
  rw [remainder?, divide?_of_divisible h, Option.bind_some, word?_eq_some_iff, Int64.toInt_mod]

theorem remainder?_of_not_divisible (h : ¬ Divisible x y) : remainder? x y = none := by
  rw [remainder?, divide?_of_not_divisible h, Option.bind_none]

theorem divide_of_divisible (h : Divisible x y) : divide x y = .ok (x / y) := by
  rw [divide, if_neg h.1, exactly, if_pos (toInt_of_word? (word?_tdiv h.2))]

/-- Behind its guard a difference does not fault, and it is the one that the test takes. -/
theorem checkedSubtract_eq (x y : Int64) : checkedSubtract x y = .ok (subtract? x y) := by
  rw [checkedSubtract, guarded, subtract?]
  cases h : word? (x.toInt - y.toInt) with
  | none =>
      have hout := word?_eq_none_iff.mp h
      rw [if_neg (by omega)]
  | some d =>
      have hrange : ¬ (x.toInt - y.toInt < -2 ^ 63 ∨ 2 ^ 63 - 1 < x.toInt - y.toInt) := by
        rw [← word?_eq_none_iff, h]
        exact Option.some_ne_none d
      rw [if_pos (by omega), subtract, ← eq_sub_of_word? h, exactly, if_pos (toInt_of_word? h)]
      rfl

/-- So with a quotient. -/
theorem checkedDivide_eq (x y : Int64) : checkedDivide x y = .ok (divide? x y) := by
  rw [checkedDivide, guarded]
  split
  · rename_i h
    rw [divide_of_divisible h, divide?_of_divisible h]
    rfl
  · rename_i h
    rw [divide?_of_not_divisible h]

/-- So with a remainder. -/
theorem checkedRemainder_eq (x y : Int64) : checkedRemainder x y = .ok (remainder? x y) := by
  rw [checkedRemainder, guarded]
  split
  · rename_i h
    rw [remainder, divide_of_divisible h, remainder?_of_divisible h]
    rfl
  · rename_i h
    rw [remainder?_of_not_divisible h]

end Checked

end Word

namespace AnPlusB

/-! ## The test -/

/-- The number is one of the positions, over the whole numbers. -/
def Denotes (p : AnPlusB) (k : Int) : Prop :=
  ∃ n : Int, 0 ≤ n ∧ p.step.toInt * n + p.offset.toInt = k

/-- The test in arithmetic that faults, each operation behind its guard. -/
def selectsInWords (p : AnPlusB) (index : Int64) : Except WordFault Bool := do
  match ← Word.checkedSubtract index p.offset with
  | none => pure false
  | some distance =>
    if p.step == 0 then pure (distance == 0)
    else if (← Word.checkedRemainder distance p.step) == some 0 then
      pure ((← Word.checkedDivide distance p.step).any (0 ≤ ·))
    else pure false

/-- The operations of the test are the guarded ones, so none of them faults. -/
theorem selectsInWords_eq (p : AnPlusB) (index : Int64) :
    p.selectsInWords index = .ok (p.selects index) := by
  rw [selectsInWords, selects, Word.checkedSubtract_eq]
  cases Word.subtract? index p.offset with
  | none => rfl
  | some distance =>
      change (if p.step == 0 then pure (distance == 0) else
        Word.checkedRemainder distance p.step >>= fun rest =>
          if rest == some 0 then
            Word.checkedDivide distance p.step >>= fun quotient => pure (quotient.any (0 ≤ ·))
          else pure false) = _
      rw [Word.checkedRemainder_eq, Word.checkedDivide_eq]
      dsimp only
      split
      · rfl
      · change (if Word.remainder? distance p.step == some 0 then _ else _) = _
        cases Word.remainder? distance p.step == some 0 <;> rfl

section Test

variable {p : AnPlusB} {index distance : Int64}

theorem selects_of_word?_none (h : word? (index.toInt - p.offset.toInt) = none) :
    p.selects index = false := by
  rw [selects, Word.subtract?, h]

theorem selects_of_step_zero (h : word? (index.toInt - p.offset.toInt) = some distance)
    (hstep : p.step = 0) : p.selects index = (distance == 0) := by
  rw [selects, Word.subtract?, h]
  dsimp only
  rw [if_pos (by rw [hstep]; rfl)]

/-- The least distance and the step -1 have no quotient. -/
theorem selects_of_corner (h : word? (index.toInt - p.offset.toInt) = some distance)
    (hcorner : distance = Int64.minValue ∧ p.step = -1) : p.selects index = false := by
  obtain ⟨rfl, hstep⟩ := hcorner
  rw [selects, Word.subtract?, h, hstep]
  decide

theorem selects_of_quotient (h : word? (index.toInt - p.offset.toInt) = some distance)
    (hstep : p.step ≠ 0) (hcorner : ¬ (distance = Int64.minValue ∧ p.step = -1)) :
    p.selects index = (distance % p.step == 0 && decide (0 ≤ distance / p.step)) := by
  have hdivisible : Word.Divisible distance p.step := ⟨hstep, hcorner⟩
  rw [selects, Word.subtract?, h]
  dsimp only
  rw [if_neg (by simpa using hstep), Word.remainder?_of_divisible hdivisible,
    Word.divide?_of_divisible hdivisible]
  rfl

/-! ## Words and whole numbers -/

/-- The step leads from the offset to the position in as many turns as their distance holds it. -/
theorem denotes_iff_of_ne (hstep : p.step ≠ 0) (k : Int) :
    p.Denotes k ↔ p.step.toInt ∣ k - p.offset.toInt ∧
      0 ≤ (k - p.offset.toInt).tdiv p.step.toInt := by
  have hne : p.step.toInt ≠ 0 := by
    rw [← Int64.toInt_zero]
    exact fun h => hstep (Int64.toInt_inj.mp h)
  constructor
  · rintro ⟨n, hn, rfl⟩
    rw [Int.add_sub_cancel, Int.mul_tdiv_cancel_left n hne]
    exact ⟨Int.dvd_mul_right _ _, hn⟩
  · rintro ⟨hdvd, hturns⟩
    refine ⟨_, hturns, ?_⟩
    rw [Int.mul_tdiv_cancel' hdvd, Int.sub_add_cancel]

theorem denotes_iff_of_zero (hstep : p.step = 0) (k : Int) :
    p.Denotes k ↔ k - p.offset.toInt = 0 := by
  rw [Denotes, hstep, Int64.toInt_zero]
  constructor
  · rintro ⟨n, -, rfl⟩
    rw [Int.zero_mul, Int.zero_add, Int.sub_self]
  · intro h
    refine ⟨0, Int.le_refl 0, ?_⟩
    omega

/-- Where distance and quotient are words, the test finds the positions. -/
theorem selects_iff_denotes (h : word? (index.toInt - p.offset.toInt) = some distance)
    (hcorner : ¬ (distance = Int64.minValue ∧ p.step = -1)) :
    p.selects index = true ↔ p.Denotes index.toInt := by
  have hdistance := toInt_of_word? h
  by_cases hstep : p.step = 0
  · rw [selects_of_step_zero h hstep, denotes_iff_of_zero hstep, ← hdistance, beq_iff_eq,
      ← Int64.toInt_zero, Int64.toInt_inj]
  · have hquotient := toInt_of_word? (word?_tdiv hcorner)
    rw [selects_of_quotient h hstep hcorner, denotes_iff_of_ne hstep, ← hdistance, ← hquotient,
      Bool.and_eq_true, beq_iff_eq, decide_eq_true_iff, Int64.le_iff_toInt_le, Int64.toInt_zero,
      Int.dvd_iff_tmod_eq_zero, ← Int64.toInt_mod, ← Int64.toInt_zero, Int64.toInt_inj]

/-- A position that is denoted is found unless its distance is no word or has no quotient. -/
theorem selects_eq_true_iff :
    p.selects index = true ↔
      p.Denotes index.toInt ∧
        (-2 ^ 63 ≤ index.toInt - p.offset.toInt ∧ index.toInt - p.offset.toInt ≤ 2 ^ 63 - 1) ∧
        ¬ (p.step = -1 ∧ index.toInt - p.offset.toInt = -2 ^ 63) := by
  cases h : word? (index.toInt - p.offset.toInt) with
  | none =>
      have hout := word?_eq_none_iff.mp h
      rw [selects_of_word?_none h]
      refine iff_of_false Bool.false_ne_true ?_
      rintro ⟨-, hrange, -⟩
      omega
  | some distance =>
      have hdistance := toInt_of_word? h
      have hlower : -2 ^ 63 ≤ distance.toInt := Int64.le_toInt distance
      have hupper : distance.toInt < 2 ^ 63 := Int64.toInt_lt distance
      have hleast : distance = Int64.minValue ↔ distance.toInt = -2 ^ 63 :=
        (Int64.toInt_inj (y := Int64.minValue)).symm
      rw [← hdistance, ← hleast, and_comm (a := p.step = -1)]
      by_cases hcorner : distance = Int64.minValue ∧ p.step = -1
      · rw [selects_of_corner h hcorner]
        exact iff_of_false Bool.false_ne_true fun hall => hall.2.2 hcorner
      · rw [selects_iff_denotes h hcorner]
        refine ⟨fun hdenotes => ⟨hdenotes, ⟨hlower, ?_⟩, hcorner⟩, fun hall => hall.1⟩
        omega

/-- With the step zero one position only is selected. -/
theorem selects_iff {offset : Int64} :
    ({ step := 0, offset } : AnPlusB).selects index = true ↔ index = offset := by
  rw [selects_eq_true_iff, denotes_iff_of_zero rfl, Int.sub_eq_zero, Int64.toInt_inj]
  constructor
  · exact fun h => h.1
  · rintro rfl
    rw [Int.sub_self]
    exact ⟨rfl, by decide, fun hcorner => absurd hcorner.2 (by decide)⟩

end Test

/-- The test finds the positions of the whole numbers, but for those at a distance that is no word,
    or is the least word where the step is -1. No operation on words faults on the way. From the
    first place on only distances past the greatest word make a difference, and there the test
    finds nothing. -/
theorem selects_exact (p : AnPlusB) (index : Int64) :
    (p.selects index = true ↔
      p.Denotes index.toInt ∧
        (-2 ^ 63 ≤ index.toInt - p.offset.toInt ∧ index.toInt - p.offset.toInt ≤ 2 ^ 63 - 1) ∧
        ¬ (p.step = -1 ∧ index.toInt - p.offset.toInt = -2 ^ 63)) ∧
    p.selectsInWords index = .ok (p.selects index) ∧
    (2 ^ 63 - 1 < index.toInt - p.offset.toInt → p.selects index = false) ∧
    (1 ≤ index.toInt → index.toInt - p.offset.toInt ≤ 2 ^ 63 - 1 →
      (p.selects index = true ↔ p.Denotes index.toInt)) := by
  refine ⟨selects_eq_true_iff, selectsInWords_eq p index, fun hfar => ?_, fun hindex hnear => ?_⟩
  · exact selects_of_word?_none (word?_eq_none_iff.mpr (Or.inr hfar))
  · -- No offset is greater than the greatest word, so a place is never that far before it.
    have hoffset : p.offset.toInt < 2 ^ 63 := Int64.toInt_lt p.offset
    rw [selects_eq_true_iff]
    refine ⟨fun h => h.1, fun h => ⟨h, ⟨?_, hnear⟩, ?_⟩⟩
    · omega
    · rintro ⟨-, hleast⟩
      omega

/-- The first place lies as far from the least offset as no word can say. -/
theorem selects_exact_least_offset :
    ¬ ((⟨1, Int64.minValue⟩ : AnPlusB).selects 1 = true ↔
        (⟨1, Int64.minValue⟩ : AnPlusB).Denotes (1 : Int64).toInt) := by
  obtain ⟨-, -, hfar, -⟩ := selects_exact ⟨1, Int64.minValue⟩ 1
  rw [hfar (by decide)]
  refine fun h => Bool.false_ne_true (h.mpr ⟨2 ^ 63 + 1, by decide, by decide⟩)

end AnPlusB

end UniqueSelector
