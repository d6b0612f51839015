/-
  UniqueSelector.Identifier.Reading

  How a name is read off the front of a text. A name is a run of name
  characters and escapes; an escape is a backslash with either one to six
  hexadecimal digits, and a blank after them that belongs to the escape, or any
  other character, which stands for itself.

  * `startsName` — three characters decide whether a name can begin here.
  * `takeEscape` — one escape, after its backslash.
  * `takeName` — the longest name in front, unescaped, and what follows it.

  Reading never lengthens the rest, and shortens it where `startsName` holds.
-/

import UniqueSelector.Identifier.Escape
import UniqueSelector.Text.Ascii
import UniqueSelector.Text.Hex

namespace UniqueSelector.Identifier

open Text

/-! ## Escapes -/

/-- A backslash in front of these characters begins an escape: anything may follow it, the end
    of the text too, but no line feed. -/
def opensEscape : List Char → Bool
  | '\n' :: _ => false
  | _ => true

/-- U+FFFD, which stands for what cannot be said. -/
def replacement : Char := '\uFFFD'

/-- The character with a code point; the replacement for zero, a surrogate, and a number beyond
    the last code point. -/
def charOfCodePoint (n : Nat) : Char :=
  if n != 0 && n.isValidChar then Char.ofNat n else replacement

/-- `s` without one blank in front. -/
def skipOneSpace : List Char → List Char
  | [] => []
  | c :: cs => if isSpace c then cs else c :: cs

/-- The character that an escape stands for, and what follows, from behind the backslash. -/
def takeEscape : List Char → Char × List Char
  | [] => (replacement, [])
  | c :: cs =>
    if isHexDigit c then
      -- One digit stands in front of these five.
      let digits := (cs.take 5).takeWhile isHexDigit
      (charOfCodePoint (hexValue (c :: digits)), skipOneSpace (cs.drop digits.length))
    else (c, cs)

theorem length_skipOneSpace_le (s : List Char) : (skipOneSpace s).length ≤ s.length := by
  cases s with
  | nil => simp [skipOneSpace]
  | cons c cs => simp only [skipOneSpace]; split <;> simp

theorem length_takeEscape_le (s : List Char) : (takeEscape s).2.length ≤ s.length := by
  cases s with
  | nil => simp [takeEscape]
  | cons c cs =>
    simp only [takeEscape]
    split
    · refine Nat.le_trans (length_skipOneSpace_le _) ?_
      simp only [List.length_drop, List.length_cons]
      omega
    · simp

/-! ## Names -/

/-- A name can be read here: after an optional hyphen stands a name start or an escape, or two
    hyphens stand in front. -/
def startsName : List Char → Bool
  | '-' :: c :: cs => isNameStart c || c == '-' || (c == '\\' && opensEscape cs)
  | '\\' :: cs => opensEscape cs
  | c :: _ => isNameStart c
  | [] => false

/-- The longest run of name characters and escapes, unescaped, and what follows it. -/
def takeName : List Char → List Char × List Char
  | [] => ([], [])
  | c :: cs =>
    if isNameChar c then
      let (name, rest) := takeName cs
      (c :: name, rest)
    else if c == '\\' && opensEscape cs then
      let (name, rest) := takeName (takeEscape cs).2
      ((takeEscape cs).1 :: name, rest)
    else ([], c :: cs)
termination_by s => s.length
decreasing_by
  · simp
  · exact Nat.lt_succ_of_le (length_takeEscape_le cs)

@[simp] theorem takeName_nil : takeName [] = ([], []) := by
  rw [takeName]

theorem takeName_cons_of_isNameChar {c : Char} (h : isNameChar c) (cs : List Char) :
    takeName (c :: cs) = (c :: (takeName cs).1, (takeName cs).2) := by
  rw [takeName]; simp [h]

theorem takeName_backslash {cs : List Char} (h : opensEscape cs) :
    takeName ('\\' :: cs) =
      ((takeEscape cs).1 :: (takeName (takeEscape cs).2).1, (takeName (takeEscape cs).2).2) := by
  have hc : isNameChar '\\' = false := by decide
  rw [takeName]; simp [h, hc]

theorem length_takeName_le (s : List Char) : (takeName s).2.length ≤ s.length := by
  fun_induction takeName s with
  | case1 => simp
  | case2 c cs hc name rest hrec ih => simp_all; omega
  | case3 c cs hc hesc name rest hrec ih =>
    have := length_takeEscape_le cs
    simp_all; omega
  | case4 => simp

theorem startsName_cons {c : Char} (hhyphen : c ≠ '-') (hback : c ≠ '\\') (cs : List Char) :
    startsName (c :: cs) = isNameStart c := by
  unfold startsName
  split <;> simp_all

/-- Where a name can begin stands one of its characters, or an escape. -/
theorem startsName_cases {s : List Char} (h : startsName s) :
    ∃ c cs, s = c :: cs ∧ (isNameChar c ∨ (c = '\\' ∧ opensEscape cs)) := by
  cases s with
  | nil => simp [startsName] at h
  | cons c cs =>
    refine ⟨c, cs, rfl, ?_⟩
    by_cases hb : c = '\\'
    · subst hb
      exact Or.inr ⟨rfl, by simpa [startsName] using h⟩
    · by_cases hhyphen : c = '-'
      · subst hhyphen
        exact Or.inl (by decide)
      · rw [startsName_cons hhyphen hb] at h
        exact Or.inl (by simp [isNameChar, h])

/-- Where a name can begin, one is read. -/
theorem length_takeName_lt {s : List Char} (h : startsName s) :
    (takeName s).2.length < s.length := by
  obtain ⟨c, cs, rfl, hc | ⟨rfl, hesc⟩⟩ := startsName_cases h
  · rw [takeName_cons_of_isNameChar hc]
    exact Nat.lt_succ_of_le (length_takeName_le cs)
  · rw [takeName_backslash hesc]
    exact Nat.lt_succ_of_le (Nat.le_trans (length_takeName_le _) (length_takeEscape_le cs))

/-- The name that is read there is not empty. -/
theorem takeName_ne_nil {s : List Char} (h : startsName s) : (takeName s).1 ≠ [] := by
  obtain ⟨c, cs, rfl, hc | ⟨rfl, hesc⟩⟩ := startsName_cases h
  · rw [takeName_cons_of_isNameChar hc]
    exact List.cons_ne_nil _ _
  · rw [takeName_backslash hesc]
    exact List.cons_ne_nil _ _

end UniqueSelector.Identifier
