/-
  UniqueSelector.Proofs.Uri.Percent

  What a selector relies on that names the percent-encoded end of a link: the
  encoded form of a text may stand between double quotes as it is, and a target
  that ends with a text ends with its encoded form only if nothing had to be
  encoded.
-/

import Mathlib.Data.List.Induction
import UniqueSelector.Uri.Percent

namespace UniqueSelector.Uri

/-! ## Quotable characters -/

theorem encodeChar_ne_nil (c : Char) : encodeChar c ≠ [] := by
  rw [encodeChar]
  split
  · exact List.cons_ne_nil c []
  · cases hbytes : String.utf8EncodeChar c with
    | nil => exact absurd hbytes String.utf8EncodeChar_ne_nil
    | cons b bs => exact List.cons_ne_nil _ _

theorem encode_ne_empty {s : String} (h : s ≠ "") : encode s ≠ "" := by
  have hchars : s.toList ≠ [] := by simpa using h
  cases hs : s.toList with
  | nil => exact absurd hs hchars
  | cons c cs =>
      intro hempty
      have hlist := congrArg String.toList hempty
      rw [toList_encode, hs, List.flatMap_cons] at hlist
      exact List.append_ne_nil_of_left_ne_nil (encodeChar_ne_nil c) _ hlist

/-- The character may stand between double quotes as it is. -/
def IsQuotable (c : Char) : Prop :=
  c ≠ '"' ∧ c ≠ '\n' ∧ c ≠ '\\'

theorem isQuotable_of_isKept {c : Char} (h : isKept c = true) : IsQuotable c := by
  refine ⟨?_, ?_, ?_⟩
  all_goals
    rintro rfl
    exact absurd h (by decide)

theorem isKept_upperHexDigit {n : Nat} (h : n < 16) : isKept (upperHexDigit n) = true := by
  have hall : ∀ n < 16, isKept (upperHexDigit n) = true := by decide
  exact hall n h

theorem isQuotable_of_mem_encodeByte {b : UInt8} {c : Char} (h : c ∈ encodeByte b) :
    IsQuotable c := by
  have hbyte := b.toNat_lt
  simp only [encodeByte, List.mem_cons, List.not_mem_nil, or_false] at h
  rcases h with rfl | rfl | rfl
  · exact ⟨by decide, by decide, by decide⟩
  · exact isQuotable_of_isKept (isKept_upperHexDigit (by omega))
  · exact isQuotable_of_isKept (isKept_upperHexDigit (by omega))

theorem isQuotable_of_mem_encode {s : String} {c : Char} (h : c ∈ (encode s).toList) :
    IsQuotable c := by
  rw [toList_encode, List.mem_flatMap] at h
  obtain ⟨d, -, hc⟩ := h
  rw [encodeChar] at hc
  split at hc
  · rename_i hkept
    rw [List.mem_singleton.mp hc]
    exact isQuotable_of_isKept hkept
  · obtain ⟨b, -, hb⟩ := List.mem_flatMap.mp hc
    exact isQuotable_of_mem_encodeByte hb

/-! ## Encoded ends -/

/-- An encoded character ends with a hexadecimal digit. -/
theorem exists_last_encodeChar {c : Char} (h : isKept c = false) :
    ∃ front d, encodeChar c = front ++ [d] ∧ isKept d = true := by
  rw [encodeChar, h, if_neg Bool.false_ne_true]
  rcases List.eq_nil_or_concat (String.utf8EncodeChar c) with hnil | ⟨bytes, b, hbytes⟩
  · exact absurd hnil String.utf8EncodeChar_ne_nil
  · have hbyte := b.toNat_lt
    refine ⟨bytes.flatMap encodeByte ++ ['%', upperHexDigit (b.toNat / 16)],
      upperHexDigit (b.toNat % 16), ?_, isKept_upperHexDigit (by omega)⟩
    rw [hbytes, List.concat_eq_append, List.flatMap_append, List.flatMap_singleton, encodeByte,
      List.append_assoc]
    rfl

/-- Nothing in a text had to be encoded if its encoded form ends with it. The last character is
    the last one of its own encoded form, and so on to the front. -/
theorem isKept_of_suffix_encode {s : List Char} (h : s <:+ s.flatMap encodeChar) :
    ∀ c ∈ s, isKept c = true := by
  induction s using List.reverseRecOn with
  | nil => exact fun c hc => nomatch hc
  | append_singleton front c ih =>
    rw [List.flatMap_append, List.flatMap_singleton] at h
    have hlast : isKept c = true := by
      by_contra hencoded
      rw [Bool.not_eq_true] at hencoded
      obtain ⟨before, d, hform, hd⟩ := exists_last_encodeChar hencoded
      have hlength : [c].length = [d].length := rfl
      rw [hform, ← List.append_assoc, List.suffix_append_inj_of_length_eq hlength] at h
      rw [List.singleton_inj.mp h.2, hd] at hencoded
      cases hencoded
    rw [encodeChar, if_pos hlast, List.suffix_append_self_iff] at h
    intro e he
    rcases List.mem_append.mp he with he | he
    · exact ih h e he
    · rw [List.mem_singleton.mp he]
      exact hlast

theorem length_le_length_encode (s : List Char) : s.length ≤ (s.flatMap encodeChar).length := by
  induction s with
  | nil => exact Nat.le_refl 0
  | cons c cs ih =>
    have hpos := List.length_pos_iff.mpr (encodeChar_ne_nil c)
    rw [List.flatMap_cons, List.length_append, List.length_cons]
    omega

/-- A target that ends with a text ends with its encoded form just if that is the text itself. -/
theorem encode_suffix_iff {s target : String} (h : s.toList <:+ target.toList) :
    (encode s).toList <:+ target.toList ↔ encode s = s := by
  constructor
  · intro hencoded
    rw [toList_encode] at hencoded
    have hends := List.suffix_of_suffix_length_le h hencoded (length_le_length_encode s.toList)
    exact encode_eq_self (isKept_of_suffix_encode hends)
  · intro hself
    rwa [hself]

end UniqueSelector.Uri
