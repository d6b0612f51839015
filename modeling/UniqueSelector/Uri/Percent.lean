/-
  UniqueSelector.Uri.Percent

  Percent-encoding of a whole link target. Letters, digits and the characters
  with a meaning inside a target stay as they are; of every other character the
  UTF-8 bytes are written, each as `%` and two upper-case hexadecimal digits.
-/

namespace UniqueSelector.Uri

/-- The characters, letters and digits apart, that are not encoded. -/
def keptMarks : List Char :=
  ";/?:@&=+$,#-_.!~*'()".toList

/-- `c` is not encoded. -/
def isKept (c : Char) : Bool :=
  c.isAlphanum || keptMarks.contains c

/-- An upper-case hexadecimal digit. -/
def upperHexDigit (n : Nat) : Char :=
  (Nat.digitChar n).toUpper

/-- `%` and the two hexadecimal digits of a byte. -/
def encodeByte (b : UInt8) : List Char :=
  ['%', upperHexDigit (b.toNat / 16), upperHexDigit (b.toNat % 16)]

/-- A character as it stands in an encoded target. -/
def encodeChar (c : Char) : List Char :=
  if isKept c then [c] else (String.utf8EncodeChar c).flatMap encodeByte

/-- `s`, percent-encoded. -/
def encode (s : String) : String :=
  String.ofList (s.toList.flatMap encodeChar)

@[simp] theorem toList_encode (s : String) : (encode s).toList = s.toList.flatMap encodeChar := by
  simp [encode]

/-- A text of kept characters is its own encoding. -/
theorem encode_eq_self {s : String} (h : ∀ c ∈ s.toList, isKept c) : encode s = s := by
  have hkept : ∀ t : List Char, (∀ c ∈ t, isKept c) → t.flatMap encodeChar = t := by
    intro t ht
    induction t with
    | nil => rfl
    | cons c cs ih => simp_all [encodeChar]
  simp [encode, hkept _ h]

end UniqueSelector.Uri
