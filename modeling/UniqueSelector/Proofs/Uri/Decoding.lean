/-
  UniqueSelector.Proofs.Uri.Decoding

  Percent-encoding loses nothing. What is written for a text is decoded by putting
  back, for each `%` and two digits, the byte that they denote, and reading the
  bytes as UTF-8. A `%` of the text is encoded itself, so none that is written
  stands for anything but the start of a byte.

    * `Unescaped`, `isUpperHexDigit` — the characters an encoded text is made of.
    * `bytes?`, `decode?` — decoding, which refuses a `%` without its two digits.
    * `bytes?_flatMap_encodeChar` — the bytes of an encoded text are those of the
      text it encodes.
    * `encode_lossless` — encoded texts, and which texts they stand for.
-/

import UniqueSelector.Proofs.Text.Digits
import UniqueSelector.Proofs.Uri.Percent

namespace UniqueSelector.Uri

open Text

/-! ## What an encoded text is made of -/

/-- The character stands for itself: an ASCII letter or digit, or one of the marks. -/
def Unescaped (c : Char) : Prop :=
  ('A' ≤ c ∧ c ≤ 'Z') ∨ ('a' ≤ c ∧ c ≤ 'z') ∨ ('0' ≤ c ∧ c ≤ '9') ∨
    c ∈ ";/?:@&=+$,#-_.!~*'()".toList

theorem isKept_iff (c : Char) : isKept c = true ↔ Unescaped c := by
  unfold isKept Unescaped Char.isAlphanum Char.isAlpha Char.isUpper Char.isLower Char.isDigit
  simp only [Bool.or_eq_true, Bool.and_eq_true, decide_eq_true_eq, List.contains_iff_mem, or_assoc]
  rfl

/-- A hexadecimal digit that is no small letter. -/
def isUpperHexDigit (c : Char) : Bool :=
  ('0' ≤ c && c ≤ '9') || ('A' ≤ c && c ≤ 'F')

theorem isUpperHexDigit_upperHexDigit {n : Nat} (h : n < 16) :
    isUpperHexDigit (upperHexDigit n) = true := by
  have hall : ∀ n < 16, isUpperHexDigit (upperHexDigit n) = true := by decide
  exact hall n h

theorem hexDigitValue_upperHexDigit {n : Nat} (h : n < 16) :
    hexDigitValue (upperHexDigit n) = n := by
  have hall : ∀ n < 16, hexDigitValue (upperHexDigit n) = n := by decide
  exact hall n h

theorem hexValue_upperHexDigits (b : UInt8) :
    hexValue [upperHexDigit (b.toNat / 16), upperHexDigit (b.toNat % 16)] = b.toNat := by
  have hbyte := b.toNat_lt
  have hhigh : b.toNat / 16 < 16 := by omega
  have hlow : b.toNat % 16 < 16 := by omega
  show 16 * (16 * 0 + hexDigitValue _) + hexDigitValue _ = _
  rw [hexDigitValue_upperHexDigit hhigh, hexDigitValue_upperHexDigit hlow]
  omega

/-! ## Decoding -/

/-- The bytes that a text stands for: `%` and two digits for the byte that they denote, every
    other character for its UTF-8 bytes. A `%` without two digits stands for nothing. -/
def bytes? : List Char → Option (List UInt8)
  | [] => some []
  | c :: cs =>
    if c == '%' then
      match cs with
      | high :: low :: rest =>
        if isUpperHexDigit high && isUpperHexDigit low then
          (bytes? rest).map (UInt8.ofNat (hexValue [high, low]) :: ·)
        else none
      | _ => none
    else (bytes? cs).map (String.utf8EncodeChar c ++ ·)

/-- The text whose UTF-8 bytes `s` stands for. -/
def decode? (s : String) : Option String :=
  (bytes? s.toList).bind fun bytes => String.fromUTF8? bytes.toByteArray

theorem bytes?_byte {high low : Char} (hhigh : isUpperHexDigit high = true)
    (hlow : isUpperHexDigit low = true) (rest : List Char) :
    bytes? ('%' :: high :: low :: rest) =
      (bytes? rest).map (UInt8.ofNat (hexValue [high, low]) :: ·) := by
  rw [bytes?, if_pos (by decide), if_pos (by rw [hhigh, hlow]; rfl)]

theorem bytes?_cons {c : Char} (hc : c ≠ '%') (rest : List Char) :
    bytes? (c :: rest) = (bytes? rest).map (String.utf8EncodeChar c ++ ·) := by
  rw [bytes?.eq_def]
  dsimp only
  rw [if_neg (by simpa using hc)]

theorem bytes?_encodeByte (b : UInt8) (rest : List Char) :
    bytes? (encodeByte b ++ rest) = (bytes? rest).map (b :: ·) := by
  have hbyte := b.toNat_lt
  have hhigh : b.toNat / 16 < 16 := by omega
  have hlow : b.toNat % 16 < 16 := by omega
  have hread := bytes?_byte (isUpperHexDigit_upperHexDigit hhigh)
    (isUpperHexDigit_upperHexDigit hlow) rest
  rw [hexValue_upperHexDigits, UInt8.ofNat_toNat] at hread
  exact hread

theorem bytes?_flatMap_encodeByte (bs : List UInt8) (rest : List Char) :
    bytes? (bs.flatMap encodeByte ++ rest) = (bytes? rest).map (bs ++ ·) := by
  induction bs with
  | nil => simp
  | cons b bs ih =>
      rw [List.flatMap_cons, List.append_assoc, bytes?_encodeByte, ih, Option.map_map]
      rfl

theorem bytes?_encodeChar (c : Char) (rest : List Char) :
    bytes? (encodeChar c ++ rest) = (bytes? rest).map (String.utf8EncodeChar c ++ ·) := by
  rw [encodeChar]
  split
  · rename_i hkept
    -- A `%` is not kept, so what is kept begins no byte.
    have hpercent : c ≠ '%' := by
      rintro rfl
      exact absurd hkept (by decide)
    exact bytes?_cons hpercent rest
  · exact bytes?_flatMap_encodeByte _ rest

/-- Decoding puts back the bytes of each character. -/
theorem bytes?_flatMap_encodeChar (s : List Char) :
    bytes? (s.flatMap encodeChar) = some (s.flatMap String.utf8EncodeChar) := by
  induction s with
  | nil => rfl
  | cons c cs ih =>
      rw [List.flatMap_cons, List.flatMap_cons, bytes?_encodeChar, ih, Option.map_some]

theorem fromUTF8?_toByteArray (s : String) : String.fromUTF8? s.toByteArray = some s :=
  dif_pos s.isValidUTF8

theorem decode?_encode (s : String) : decode? (encode s) = some s := by
  have hbytes : (s.toList.flatMap String.utf8EncodeChar).toByteArray = s.toByteArray := by
    show s.toList.utf8Encode = _
    rw [← String.toByteArray_ofList, String.ofList_toList]
  rw [decode?, toList_encode, bytes?_flatMap_encodeChar, Option.bind_some, hbytes,
    fromUTF8?_toByteArray]

/-! ## The places of `%` -/

/-- Wherever a `%` stands, the two digits of a byte stand behind it. -/
def PercentPaired (text : List Char) : Prop :=
  ∀ before after, text = before ++ '%' :: after →
    ∃ high low rest, after = high :: low :: rest ∧
      isUpperHexDigit high = true ∧ isUpperHexDigit low = true

theorem percentPaired_nil : PercentPaired [] := by
  intro before after hcut
  simp at hcut

theorem PercentPaired.cons {c : Char} (hc : c ≠ '%') {text : List Char} (h : PercentPaired text) :
    PercentPaired (c :: text) := by
  intro before after hcut
  rcases List.cons_eq_append_iff.mp hcut with ⟨-, hafter⟩ | ⟨before', rfl, hcut'⟩
  · exact absurd (List.cons.inj hafter).1.symm hc
  · exact h before' after hcut'

theorem ne_percent_of_isUpperHexDigit {c : Char} (h : isUpperHexDigit c = true) : c ≠ '%' := by
  rintro rfl
  exact absurd h (by decide)

theorem PercentPaired.byte {high low : Char} (hhigh : isUpperHexDigit high = true)
    (hlow : isUpperHexDigit low = true) {text : List Char} (h : PercentPaired text) :
    PercentPaired ('%' :: high :: low :: text) := by
  intro before after hcut
  rcases List.cons_eq_append_iff.mp hcut with ⟨-, hafter⟩ | ⟨before', rfl, hcut'⟩
  · exact ⟨high, low, text, (List.cons.inj hafter).2, hhigh, hlow⟩
  · -- Neither digit is a `%`, so this one stands behind them.
    have hrest := (h.cons (ne_percent_of_isUpperHexDigit hlow)).cons
      (ne_percent_of_isUpperHexDigit hhigh)
    exact hrest before' after hcut'

/-- A text that can be decoded has no other `%`. -/
theorem percentPaired_of_bytes? {text : List Char} {bytes : List UInt8}
    (h : bytes? text = some bytes) : PercentPaired text := by
  fun_induction bytes? text generalizing bytes with
  | case1 => exact percentPaired_nil
  | case2 c hc high low rest hdigits ih =>
      obtain rfl := beq_iff_eq.mp hc
      obtain ⟨hhigh, hlow⟩ := Bool.and_eq_true_iff.mp hdigits
      obtain ⟨bytes', hbytes', -⟩ := Option.map_eq_some_iff.mp h
      exact (ih hbytes').byte hhigh hlow
  | case3 => cases h
  | case4 => cases h
  | case5 c cs hc ih =>
      obtain ⟨bytes', hbytes', -⟩ := Option.map_eq_some_iff.mp h
      exact (ih hbytes').cons (by simpa using hc)

/-! ## Encoded texts -/

theorem unescaped_of_mem_encodeChar {c d : Char} (h : d ∈ encodeChar c) :
    Unescaped d ∨ d = '%' := by
  rw [encodeChar] at h
  split at h
  · rename_i hkept
    rw [List.mem_singleton.mp h]
    exact Or.inl ((isKept_iff c).mp hkept)
  · obtain ⟨b, -, hb⟩ := List.mem_flatMap.mp h
    have hbyte := b.toNat_lt
    have hdigit : ∀ n < 16, Unescaped (upperHexDigit n) :=
      fun n hn => (isKept_iff _).mp (isKept_upperHexDigit hn)
    simp only [encodeByte, List.mem_cons, List.not_mem_nil, or_false] at hb
    rcases hb with rfl | rfl | rfl
    · exact Or.inr rfl
    · exact Or.inl (hdigit _ (by omega))
    · exact Or.inl (hdigit _ (by omega))

theorem encode_eq_self_iff (s : String) : encode s = s ↔ ∀ c ∈ s.toList, Unescaped c := by
  simp only [← isKept_iff]
  constructor
  · intro hself
    have hchars : s.toList.flatMap encodeChar = s.toList := by rw [← toList_encode, hself]
    exact isKept_of_suffix_encode ⟨[], hchars.symm⟩
  · exact encode_eq_self

/-- How a text `s` and its encoded form `e` go together. -/
structure EncodedAs (s e : String) : Prop where
  characters : ∀ c ∈ e.toList, Unescaped c ∨ c = '%'
  paired : PercentPaired e.toList
  decodes : decode? e = some s
  eq_iff : e = s ↔ ∀ c ∈ s.toList, Unescaped c

/-- Every text can be had back from its encoded form, so no two texts have one in common. -/
theorem encode_lossless :
    (∀ s, EncodedAs s (encode s)) ∧ Function.Injective encode := by
  constructor
  · intro s
    have hbytes := bytes?_flatMap_encodeChar s.toList
    rw [← toList_encode] at hbytes
    exact
      { characters := by
          intro c hc
          rw [toList_encode, List.mem_flatMap] at hc
          obtain ⟨d, -, hd⟩ := hc
          exact unescaped_of_mem_encodeChar hd
        paired := percentPaired_of_bytes? hbytes
        decodes := decode?_encode s
        eq_iff := encode_eq_self_iff s }
  · intro s s' h
    have hdecoded := decode?_encode s
    rw [h, decode?_encode] at hdecoded
    exact (Option.some.inj hdecoded).symm

theorem encode_lossless_percent :
    encode "é%" = "%C3%A9%25" ∧ decode? "%C3%A9%25" = some "é%" := by
  have hencode : encode "é%" = "%C3%A9%25" := by decide +kernel
  have hdecodes := (encode_lossless.1 "é%").decodes
  rw [hencode] at hdecodes
  exact ⟨hencode, hdecodes⟩

end UniqueSelector.Uri
