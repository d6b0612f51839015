/-
  UniqueSelector.Proofs.Text.Digits

  Numbers in digits read back as the numbers they were written for: the
  hexadecimal code points inside escapes, and signed decimal words.

    * `hexValue_toDigits`, `isHexDigit_of_mem_toDigits` — hexadecimal.
    * `decimalText`, `signedText` — decimal writers, read back by
      `integer?_decimalText` and `integer?_signedText`.
    * `Numeral` — all texts of a word, and no others are read
      (`integer?_eq_some_iff`); `Natural` — the same without a minus sign.
-/

import Mathlib.Tactic.IntervalCases
import UniqueSelector.Text.Hex
import UniqueSelector.Text.Numeral

namespace UniqueSelector.Text

/-! ## Hexadecimal -/

theorem isHexDigit_digitChar {d : Nat} (h : d < 16) : isHexDigit d.digitChar = true := by
  interval_cases d <;> decide

theorem hexDigitValue_digitChar {d : Nat} (h : d < 16) : hexDigitValue d.digitChar = d := by
  interval_cases d <;> decide

theorem hexValue_concat (digits : List Char) (c : Char) :
    hexValue (digits ++ [c]) = 16 * hexValue digits + hexDigitValue c := by
  rw [hexValue, List.foldl_append]
  rfl

/-- The hexadecimal digits of a number denote it. -/
theorem hexValue_toDigits (n : Nat) : hexValue (Nat.toDigits 16 n) = n := by
  induction n using Nat.strongRecOn with
  | ind n ih =>
      rw [Nat.toDigits_eq_if (by decide)]
      split
      · rename_i h
        exact (Nat.zero_add _).trans (hexDigitValue_digitChar h)
      · have hlt : n / 16 < n := by omega
        have hmod : n % 16 < 16 := Nat.mod_lt _ (by decide)
        rw [hexValue_concat, ih _ hlt, hexDigitValue_digitChar hmod]
        exact Nat.div_add_mod n 16

theorem isHexDigit_of_mem_toDigits {n : Nat} {c : Char} (h : c ∈ Nat.toDigits 16 n) :
    isHexDigit c = true := by
  induction n using Nat.strongRecOn with
  | ind n ih =>
      rw [Nat.toDigits_eq_if (by decide)] at h
      split at h
      · rename_i hn
        rw [List.mem_singleton.mp h]
        exact isHexDigit_digitChar hn
      · have hlt : n / 16 < n := by omega
        rcases List.mem_append.mp h with h | h
        · exact ih _ hlt h
        · rw [List.mem_singleton.mp h]
          exact isHexDigit_digitChar (Nat.mod_lt _ (by decide))

/-! ## Decimal -/

/-- The value of a run of digits, by the fold of the standard library. -/
theorem decimalValue_eq_ofDigitChars (s : List Char) :
    decimalValue s = Nat.ofDigitChars 10 s 0 := by
  rw [Nat.ofDigitChars_eq_foldl]
  rfl

/-- The decimal digits of a number are a numeral for it. -/
theorem digits?_toDigits (n : Nat) : digits? (Nat.toDigits 10 n) = some n := by
  have hne : Nat.toDigits 10 n ≠ [] := Nat.toDigits_ne_nil
  have hall : (Nat.toDigits 10 n).all Char.isDigit = true :=
    List.all_eq_true.mpr fun _ hc => Nat.isDigit_of_mem_toDigits (by decide) (by decide) hc
  have hval : decimalValue (Nat.toDigits 10 n) = n := by
    rw [decimalValue_eq_ofDigitChars, Nat.ofDigitChars_ten_toDigits]
  rw [digits?, if_pos (by simp [hne, hall]), hval]

/-! ## Words -/

/-- A word is in its own range. -/
theorem word?_toInt (w : Int64) : word? w.toInt = some w := by
  have hrange : Int64.minValue.toInt ≤ w.toInt ∧ w.toInt ≤ Int64.maxValue.toInt :=
    ⟨Int64.le_toInt w, Int64.toInt_le w⟩
  rw [word?, if_pos hrange, Int64.ofInt_toInt]

theorem toInt_of_word? {n : Int} {w : Int64} (h : word? n = some w) : w.toInt = n := by
  rw [word?] at h
  split at h
  · rename_i hrange
    cases h
    exact Int64.toInt_ofInt_of_le hrange.1 (Int.lt_add_one_of_le hrange.2)
  · cases h

theorem word?_eq_some_iff {n : Int} {w : Int64} : word? n = some w ↔ w.toInt = n := by
  constructor
  · exact toInt_of_word?
  · rintro rfl
    exact word?_toInt w

theorem word?_eq_none_iff {n : Int} : word? n = none ↔ n < -2 ^ 63 ∨ 2 ^ 63 - 1 < n := by
  rw [word?, Int64.toInt_minValue, Int64.toInt_maxValue]
  constructor
  · intro h
    split at h
    · cases h
    · omega
  · intro h
    rw [if_neg (by omega)]

theorem exists_word?_of_lt {n : Nat} (h : n < 2 ^ 63) : ∃ w, word? (n : Int) = some w := by
  rw [← Option.ne_none_iff_exists', ne_eq, word?_eq_none_iff]
  omega

/-! ## Signed decimal words -/

/-- A whole number in decimal, with a sign if it is negative. -/
def decimalText : Int → List Char
  | .ofNat n => Nat.toDigits 10 n
  | .negSucc n => '-' :: Nat.toDigits 10 (n + 1)

theorem toList_toString_nat (n : Nat) : (toString n).toList = Nat.toDigits 10 n := by
  show (Nat.repr n).toList = _
  rw [Nat.repr, String.toList_ofList]

theorem toList_toString_int (n : Int) : (toString n).toList = decimalText n := by
  cases n with
  | ofNat n => exact toList_toString_nat n
  | negSucc n =>
      show ("-" ++ toString (n + 1)).toList = _
      rw [String.toList_append, toList_toString_nat]
      rfl

/-- A whole number in decimal, always with a sign. -/
def signedText : Int → List Char
  | .ofNat n => '+' :: Nat.toDigits 10 n
  | .negSucc n => '-' :: Nat.toDigits 10 (n + 1)

/-- A number without a sign is read as its digits say. -/
theorem integer?_toDigits (n : Nat) : integer? (Nat.toDigits 10 n) = word? n := by
  have hsign : ∀ c ∈ Nat.toDigits 10 n, c ≠ '-' ∧ c ≠ '+' := by
    intro c hc
    have hdigit := Nat.isDigit_of_mem_toDigits (by decide) (by decide) hc
    exact ⟨by rintro rfl; exact absurd hdigit (by decide),
      by rintro rfl; exact absurd hdigit (by decide)⟩
  have hread := digits?_toDigits n
  unfold integer?
  split
  · rename_i r h
    exact absurd rfl (hsign '-' (by rw [h]; exact List.mem_cons_self)).1
  · rename_i r h
    exact absurd rfl (hsign '+' (by rw [h]; exact List.mem_cons_self)).2
  · rw [hread, Option.bind_some]

theorem integer?_decimalText (n : Int) : integer? (decimalText n) = word? n := by
  cases n with
  | ofNat n => exact integer?_toDigits n
  | negSucc n =>
      change (digits? (Nat.toDigits 10 (n + 1))).bind (fun m => word? (-m)) = _
      rw [digits?_toDigits, Option.bind_some]
      rfl

theorem integer?_signedText (n : Int) : integer? (signedText n) = word? n := by
  cases n with
  | ofNat n =>
      change (digits? (Nat.toDigits 10 n)).bind (fun m => word? m) = _
      rw [digits?_toDigits, Option.bind_some]
      rfl
  | negSucc n => exact integer?_decimalText (.negSucc n)

/-- Only digits and signs stand in a number. -/
theorem mem_decimalText {n : Int} {c : Char} (h : c ∈ decimalText n) :
    c.isDigit = true ∨ c = '-' := by
  cases n with
  | ofNat n => exact Or.inl (Nat.isDigit_of_mem_toDigits (by decide) (by decide) h)
  | negSucc n =>
      rcases List.mem_cons.mp h with h | h
      · exact Or.inr h
      · exact Or.inl (Nat.isDigit_of_mem_toDigits (by decide) (by decide) h)

theorem mem_signedText {n : Int} {c : Char} (h : c ∈ signedText n) :
    c.isDigit = true ∨ c = '-' ∨ c = '+' := by
  cases n with
  | ofNat n =>
      rcases List.mem_cons.mp h with h | h
      · exact Or.inr (Or.inr h)
      · exact Or.inl (Nat.isDigit_of_mem_toDigits (by decide) (by decide) h)
  | negSucc n => exact (mem_decimalText (n := .negSucc n) h).imp_right Or.inl

/-! ## All numerals -/

/-- Digits, one at least. -/
def IsDigits (ds : List Char) : Prop :=
  ds ≠ [] ∧ ∀ d ∈ ds, d.isDigit = true

/-- The text is a number in decimal, with a sign or without, and `w` is that number. -/
inductive Numeral : List Char → Int64 → Prop
  | bare {ds : List Char} {w : Int64} (hds : IsDigits ds)
      (hw : w.toInt = Nat.ofDigitChars 10 ds 0) : Numeral ds w
  | plus {ds : List Char} {w : Int64} (hds : IsDigits ds)
      (hw : w.toInt = Nat.ofDigitChars 10 ds 0) : Numeral ('+' :: ds) w
  | minus {ds : List Char} {w : Int64} (hds : IsDigits ds)
      (hw : w.toInt = -(Nat.ofDigitChars 10 ds 0 : Int)) : Numeral ('-' :: ds) w

theorem digits?_eq_some_iff {ds : List Char} {n : Nat} :
    digits? ds = some n ↔ IsDigits ds ∧ Nat.ofDigitChars 10 ds 0 = n := by
  rw [digits?, IsDigits, decimalValue_eq_ofDigitChars]
  simp [and_assoc]

theorem digits?_bind_eq_some_iff {ds : List Char} {f : Nat → Int} {w : Int64} :
    ((digits? ds).bind fun n => word? (f n)) = some w ↔
      IsDigits ds ∧ w.toInt = f (Nat.ofDigitChars 10 ds 0) := by
  rw [Option.bind_eq_some_iff]
  constructor
  · rintro ⟨n, hn, hw⟩
    obtain ⟨hds, rfl⟩ := digits?_eq_some_iff.mp hn
    exact ⟨hds, word?_eq_some_iff.mp hw⟩
  · rintro ⟨hds, hw⟩
    exact ⟨_, digits?_eq_some_iff.mpr ⟨hds, rfl⟩, word?_eq_some_iff.mpr hw⟩

/-- A sign is no digit. -/
theorem not_isDigits_sign {c : Char} (hc : c.isDigit = false) (ds : List Char) :
    ¬ IsDigits (c :: ds) := by
  rintro ⟨-, hall⟩
  rw [hall c List.mem_cons_self] at hc
  cases hc

/-- The numerals of words are the texts that are read as words. -/
theorem integer?_eq_some_iff {s : List Char} {w : Int64} : integer? s = some w ↔ Numeral s w := by
  constructor
  · intro h
    unfold integer? at h
    split at h
    · obtain ⟨hds, hw⟩ := digits?_bind_eq_some_iff.mp h
      exact Numeral.minus hds hw
    · obtain ⟨hds, hw⟩ := digits?_bind_eq_some_iff.mp h
      exact Numeral.plus hds hw
    · obtain ⟨hds, hw⟩ := digits?_bind_eq_some_iff.mp h
      exact Numeral.bare hds hw
  · intro h
    cases h with
    | bare hds hw =>
        unfold integer?
        split
        · exact absurd hds (not_isDigits_sign (by decide) _)
        · exact absurd hds (not_isDigits_sign (by decide) _)
        · exact digits?_bind_eq_some_iff.mpr ⟨hds, hw⟩
    | plus hds hw => exact digits?_bind_eq_some_iff.mpr ⟨hds, hw⟩
    | minus hds hw => exact digits?_bind_eq_some_iff.mpr ⟨hds, hw⟩

/-! ## Unsigned numerals -/

/-- The text is a number in decimal, with a plus or without, `n` is that number, and an unsigned
    word holds it. -/
inductive Natural : List Char → Nat → Prop
  | bare {ds : List Char} {n : Nat} (hds : IsDigits ds) (hn : Nat.ofDigitChars 10 ds 0 = n)
      (hlt : n < 2 ^ 64) : Natural ds n
  | plus {ds : List Char} {n : Nat} (hds : IsDigits ds) (hn : Nat.ofDigitChars 10 ds 0 = n)
      (hlt : n < 2 ^ 64) : Natural ('+' :: ds) n

theorem digits?_filter_eq_some_iff {ds : List Char} {n : Nat} :
    (digits? ds).filter (· < UInt64.size) = some n ↔
      IsDigits ds ∧ Nat.ofDigitChars 10 ds 0 = n ∧ n < 2 ^ 64 := by
  rw [Option.filter_eq_some_iff, digits?_eq_some_iff, and_assoc, decide_eq_true_iff]
  rfl

theorem natural?_eq_some_iff {s : List Char} {n : Nat} : natural? s = some n ↔ Natural s n := by
  unfold natural?
  constructor
  · intro h
    split at h
    · obtain ⟨hds, hn, hlt⟩ := digits?_filter_eq_some_iff.mp h
      exact Natural.plus hds hn hlt
    · obtain ⟨hds, hn, hlt⟩ := digits?_filter_eq_some_iff.mp h
      exact Natural.bare hds hn hlt
  · intro h
    cases h with
    | bare hds hn hlt =>
        split
        · exact absurd hds (not_isDigits_sign (by decide) _)
        · exact digits?_filter_eq_some_iff.mpr ⟨hds, hn, hlt⟩
    | plus hds hn hlt => exact digits?_filter_eq_some_iff.mpr ⟨hds, hn, hlt⟩

/-- A text denotes one number at most. -/
theorem Natural.unique {s : List Char} {n n' : Nat} (h : Natural s n) (h' : Natural s n') :
    n = n' := by
  rw [← natural?_eq_some_iff] at h h'
  exact Option.some.inj (h.symm.trans h')

/-- The decimal digits of a number that fits in a word. -/
theorem natural_toDigits {n : Nat} (hn : n < 2 ^ 64) : Natural (Nat.toDigits 10 n) n := by
  obtain ⟨hds, hvalue⟩ := digits?_eq_some_iff.mp (digits?_toDigits n)
  exact Natural.bare hds hvalue hn

end UniqueSelector.Text
