/-
  UniqueSelector.Text.Ascii

  The ASCII rules that markup and selectors share: which characters are blank,
  when two names differ only in letter case, and how an attribute value falls
  apart into words.

  * `isSpace` — tab, line feed, form feed, carriage return and space.
  * `lower`, `sameLetters` — folding of `A`–`Z`; every other character is kept.
  * `words` — the maximal runs of non-blank characters, in order.
-/

namespace UniqueSelector.Text

/-! ## Blanks -/

/-- The five blank characters of markup and of selectors. -/
def isSpace (c : Char) : Bool :=
  c == ' ' || c == '\t' || c == '\n' || c == '\r' || c == '\x0c'

/-- No character behind the space is blank. -/
theorem isSpace_of_lt {c : Char} (h : 32 < c.val.toNat) : isSpace c = false := by
  have hne : ∀ d : Char, d.val.toNat ≤ 32 → c ≠ d := by
    rintro d hd rfl
    omega
  simp [isSpace, hne ' ' (by decide), hne '\t' (by decide), hne '\n' (by decide),
    hne '\r' (by decide), hne '\x0c' (by decide)]

/-- `s` without its leading blanks. -/
def skipSpace (s : List Char) : List Char :=
  s.dropWhile isSpace

theorem length_skipSpace_le (s : List Char) : (skipSpace s).length ≤ s.length :=
  (List.dropWhile_sublist isSpace).length_le

/-- `words s` are the maximal runs of non-blank characters of `s`. -/
def words (s : String) : List String :=
  ((s.toList.splitOnP isSpace).filter (!·.isEmpty)).map String.ofList

/-! ## Letter case -/

theorem val_toLower_of_upper {c : Char} (h : 'A'.val ≤ c.val ∧ c.val ≤ 'Z'.val) :
    c.toLower.val = c.val + 32 :=
  congrArg Char.val (dif_pos h)

theorem toLower_of_not_upper {c : Char} (h : ¬ ('A'.val ≤ c.val ∧ c.val ≤ 'Z'.val)) :
    c.toLower = c :=
  dif_neg h

theorem toLower_toLower (c : Char) : c.toLower.toLower = c.toLower := by
  by_cases hupper : 'A'.val ≤ c.val ∧ c.val ≤ 'Z'.val
  · have hlower : ¬ ('A'.val ≤ c.toLower.val ∧ c.toLower.val ≤ 'Z'.val) := by
      rw [val_toLower_of_upper hupper]
      intro hle
      have hc : 65 ≤ c.val.toNat ∧ c.val.toNat ≤ 90 := hupper
      have hle : 65 ≤ (c.val + 32).toNat ∧ (c.val + 32).toNat ≤ 90 := hle
      rw [UInt32.toNat_add] at hle
      simp only [UInt32.reduceToNat] at hle
      omega
    exact toLower_of_not_upper hlower
  · rw [toLower_of_not_upper hupper, toLower_of_not_upper hupper]

/-- Blanks have no letter case. -/
theorem isSpace_toLower (c : Char) : isSpace c.toLower = isSpace c := by
  by_cases hupper : 'A'.val ≤ c.val ∧ c.val ≤ 'Z'.val
  · have hle : 65 ≤ c.val.toNat ∧ c.val.toNat ≤ 90 := hupper
    have hval := congrArg UInt32.toNat (val_toLower_of_upper hupper)
    rw [UInt32.toNat_add] at hval
    simp only [UInt32.reduceToNat] at hval
    rw [isSpace_of_lt (by omega), isSpace_of_lt (by omega)]
  · rw [toLower_of_not_upper hupper]

/-- `s` with `A`–`Z` written as `a`–`z`. -/
def lower (s : String) : String :=
  String.ofList (s.toList.map Char.toLower)

@[simp] theorem toList_lower (s : String) : (lower s).toList = s.toList.map Char.toLower := by
  simp [lower]

/-- Equality up to the case of ASCII letters. -/
def sameLetters (a b : String) : Bool :=
  lower a == lower b

@[simp] theorem sameLetters_self (a : String) : sameLetters a a = true := by
  simp [sameLetters]

end UniqueSelector.Text
