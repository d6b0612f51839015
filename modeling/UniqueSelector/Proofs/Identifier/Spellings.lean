/-
  UniqueSelector.Proofs.Identifier.Spellings

  All the ways to write a name. A character stands for itself, or behind a
  backslash, as itself or as a code point in hexadecimal. How far a code point
  reaches depends on what stands behind it, so a spelling is one in front of a
  given text.

    * `Writes` — the ways to write one character.
    * `Spells` — the spellings of a name in front of a text.
    * `takeName_eq_iff_spells` — in front of a text that ends a name, the reader
      takes the spellings of a name and no other texts.

  What the library writes itself is one of these spellings; see
  `Identifier.Pieces` for those that do not depend on what follows.
-/

import UniqueSelector.Proofs.Identifier.RoundTrip

namespace UniqueSelector.Identifier

open Text

/-! ## The grammar -/

/-- One to six hexadecimal digits, each in either case. -/
structure IsCode (digits : List Char) : Prop where
  ne_nil : digits ≠ []
  length_le : digits.length ≤ 6
  hex : ∀ d ∈ digits, isHexDigit d = true

/-- No code point, or that of NUL: zero, a surrogate, or a number beyond the last code point. -/
def Codeless (n : Nat) : Prop :=
  n = 0 ∨ (0xD800 ≤ n ∧ n ≤ 0xDFFF) ∨ 0x10FFFF < n

/-- The digits stand for the character whose code point they denote, and for U+FFFD where that
    is none. -/
inductive Codes (digits : List Char) : Char → Prop
  | codePoint {c : Char} (hnul : c ≠ '\x00') (h : hexValue digits = c.toNat) : Codes digits c
  | codeless (h : Codeless (hexValue digits)) : Codes digits '\uFFFD'

/-- In front of `next`, `text` is one way to write `c` inside a name. -/
inductive Writes (next : List Char) : List Char → Char → Prop
  | plain {c : Char} (h : isNameChar c = true) : Writes next [c] c
  | escaped {c : Char} (hhex : isHexDigit c = false) (hline : c ≠ '\n') : Writes next ['\\', c] c
  /-- The blank behind the digits is part of the escape. -/
  | spaced {digits : List Char} {blank c : Char} (hdigits : IsCode digits) (hc : Codes digits c)
      (hblank : isSpace blank = true) : Writes next ('\\' :: (digits ++ [blank])) c
  /-- Without a blank nothing may stand there that would be taken for part of the escape. -/
  | bare {digits : List Char} {c : Char} (hdigits : IsCode digits) (hc : Codes digits c)
      (hstop : digits.length = 6 ∨ ∀ d ∈ next.head?, isHexDigit d = false)
      (hblank : ∀ d ∈ next.head?, isSpace d = false) : Writes next ('\\' :: digits) c
  /-- A backslash with nothing behind it. -/
  | cutShort (h : next = []) : Writes next ['\\'] '\uFFFD'

/-- In front of `rest`, `text` is one way to write the name `s`, character by character. -/
inductive Spells (rest : List Char) : List Char → List Char → Prop
  | nil : Spells rest [] []
  | cons {piece text : List Char} {c : Char} {s : List Char} (hc : Writes (text ++ rest) piece c)
      (hs : Spells rest text s) : Spells rest (piece ++ text) (c :: s)

/-! ## Code points -/

theorem codeless_iff (n : Nat) : Codeless n ↔ ¬ (n ≠ 0 ∧ n.isValidChar) := by
  simp only [Codeless, Nat.isValidChar]
  omega

theorem toNat_charOfNat {n : Nat} (h : n.isValidChar) : (Char.ofNat n).toNat = n := by
  rw [Char.ofNat, dif_pos h]
  rfl

theorem codes_iff (digits : List Char) (c : Char) :
    Codes digits c ↔ charOfCodePoint (hexValue digits) = c := by
  constructor
  · intro h
    cases h with
    | codePoint hnul h => rw [h, charOfCodePoint_toNat hnul]
    | codeless h =>
        rw [codeless_iff] at h
        rw [charOfCodePoint, if_neg (by simpa using h), replacement]
  · rintro rfl
    by_cases h : Codeless (hexValue digits)
    · have hnone := (codeless_iff _).mp h
      rw [charOfCodePoint, if_neg (by simpa using hnone), replacement]
      exact Codes.codeless h
    · obtain ⟨hne, hvalid⟩ := not_not.mp (mt (codeless_iff _).mpr h)
      have hcode : (Char.ofNat (hexValue digits)).toNat = hexValue digits :=
        toNat_charOfNat hvalid
      rw [charOfCodePoint, if_pos (by simp [hne, hvalid])]
      refine Codes.codePoint ?_ hcode.symm
      intro hnul
      rw [hnul] at hcode
      exact hne hcode.symm

/-- A code is a first digit and five more at most. -/
theorem IsCode.exists_cons {digits : List Char} (h : IsCode digits) :
    ∃ d ds, digits = d :: ds ∧ isHexDigit d = true ∧
      (∀ x ∈ ds, isHexDigit x = true) ∧ ds.length ≤ 5 := by
  cases digits with
  | nil => exact absurd rfl h.ne_nil
  | cons d ds =>
      obtain ⟨hd, hds⟩ := List.forall_mem_cons.mp h.hex
      exact ⟨d, ds, rfl, hd, hds, Nat.le_of_succ_le_succ h.length_le⟩

theorem isCode_cons {d : Char} {ds : List Char} (hd : isHexDigit d = true)
    (hds : ∀ x ∈ ds, isHexDigit x = true) (hlen : ds.length ≤ 5) : IsCode (d :: ds) where
  ne_nil := List.cons_ne_nil d ds
  length_le := Nat.succ_le_succ hlen
  hex := List.forall_mem_cons.mpr ⟨hd, hds⟩

/-- A code is read as its character, if nothing behind it is taken for one more digit. -/
theorem takeEscape_code {digits next : List Char} {c : Char} (hdigits : IsCode digits)
    (hc : Codes digits c)
    (hstop : digits.length = 6 ∨ ∀ d ∈ next.head?, isHexDigit d = false) :
    takeEscape (digits ++ next) = (c, skipOneSpace next) := by
  obtain ⟨d, ds, rfl, hd, hds, hlen⟩ := hdigits.exists_cons
  have hstop' : ds.length = 5 ∨ ∀ x ∈ next.head?, isHexDigit x = false := by
    simpa using hstop
  rw [takeEscape_hex hd hds hlen hstop', (codes_iff _ c).mp hc]

theorem IsCode.opensEscape {digits : List Char} (h : IsCode digits) (next : List Char) :
    opensEscape (digits ++ next) = true := by
  obtain ⟨d, ds, rfl, hd, -, -⟩ := h.exists_cons
  have hline : d ≠ '\n' := by
    rintro rfl
    exact absurd hd (by decide)
  exact opensEscape_cons hline _

theorem skipOneSpace_blank {blank : Char} (h : isSpace blank = true) (next : List Char) :
    skipOneSpace (blank :: next) = next := by
  rw [skipOneSpace, if_pos h]

theorem skipOneSpace_of_head {next : List Char} (h : ∀ d ∈ next.head?, isSpace d = false) :
    skipOneSpace next = next := by
  cases next with
  | nil => rfl
  | cons d ds => rw [skipOneSpace, if_neg (by simp [h d rfl])]

/-- One blank in front is skipped, or there is none. -/
theorem skipOneSpace_cases (next : List Char) :
    (∃ blank, next = blank :: skipOneSpace next ∧ isSpace blank = true) ∨
      skipOneSpace next = next ∧ ∀ d ∈ next.head?, isSpace d = false := by
  cases next with
  | nil => exact Or.inr ⟨rfl, by simp⟩
  | cons d ds =>
      by_cases hd : isSpace d = true
      · exact Or.inl ⟨d, by rw [skipOneSpace_blank hd], hd⟩
      · have hhead : ∀ x ∈ (d :: ds).head?, isSpace x = false := by simpa using hd
        exact Or.inr ⟨skipOneSpace_of_head hhead, hhead⟩

theorem isHexDigit_of_isSpace {c : Char} (h : isSpace c = true) : isHexDigit c = false := by
  simp only [isSpace, Bool.or_eq_true, beq_iff_eq] at h
  rcases h with (((rfl | rfl) | rfl) | rfl) | rfl <;> decide

/-! ## Spellings are read -/

/-- The reader takes one character, however it is written, and goes on behind it. -/
theorem takeName_writes {next piece : List Char} {c : Char} (h : Writes next piece c) :
    takeName (piece ++ next) = (c :: (takeName next).1, (takeName next).2) := by
  cases h with
  | plain h => exact takeName_cons_of_isNameChar h next
  | escaped hhex hline => exact takeName_piece (Piece.escaped (escapeBody_self hhex hline)) next
  | @spaced digits blank c hdigits hc hblank =>
      have hstop : ∀ d ∈ (blank :: next).head?, isHexDigit d = false := by
        intro d hd
        rw [← Option.some.inj hd]
        exact isHexDigit_of_isSpace hblank
      rw [List.cons_append, List.append_assoc, takeName_backslash (hdigits.opensEscape _),
        List.singleton_append, takeEscape_code hdigits hc (Or.inr hstop),
        skipOneSpace_blank hblank]
  | bare hdigits hc hstop hblank =>
      rw [List.cons_append, takeName_backslash (hdigits.opensEscape _),
        takeEscape_code hdigits hc hstop, skipOneSpace_of_head hblank]
  | cutShort h =>
      rw [h, List.append_nil, takeName_backslash rfl]
      rfl

theorem Spells.takeName {rest text s : List Char} (h : Spells rest text s) :
    takeName (text ++ rest) = (s ++ (takeName rest).1, (takeName rest).2) := by
  induction h with
  | nil => rfl
  | cons hc hs ih => rw [List.append_assoc, takeName_writes hc, ih, List.cons_append]

/-! ## What is read is a spelling -/

/-- What an escape takes, with its backslash, is one way to write its character. -/
theorem exists_writes_of_opensEscape {cs : List Char} (h : opensEscape cs = true) :
    ∃ piece, '\\' :: cs = piece ++ (takeEscape cs).2 ∧
      Writes (takeEscape cs).2 piece (takeEscape cs).1 := by
  cases cs with
  | nil => exact ⟨['\\'], rfl, Writes.cutShort rfl⟩
  | cons c cs =>
      by_cases hhex : isHexDigit c = true
      · obtain ⟨ds, next, rfl, hds, hlen, hstop⟩ := exists_hexRun cs
        have hdigits := isCode_cons hhex hds hlen
        have hcodes := (codes_iff (c :: ds) _).mpr rfl
        rw [← List.cons_append, takeEscape_hex hhex hds hlen hstop]
        rcases skipOneSpace_cases next with ⟨blank, hnext, hblank⟩ | ⟨hskip, hhead⟩
        · refine ⟨'\\' :: (c :: ds ++ [blank]), ?_, Writes.spaced hdigits hcodes hblank⟩
          show _ = '\\' :: ((c :: ds ++ [blank]) ++ skipOneSpace next)
          rw [List.append_assoc, List.singleton_append, ← hnext]
        · rw [hskip]
          exact ⟨'\\' :: c :: ds, rfl, Writes.bare hdigits hcodes (by simpa using hstop) hhead⟩
      · have hline : c ≠ '\n' := by
          rintro rfl
          cases h
        rw [takeEscape, if_neg hhex]
        exact ⟨['\\', c], rfl, Writes.escaped (by simpa using hhex) hline⟩

/-- The reader stops behind a spelling of what it gives. -/
theorem exists_spells_takeName (t : List Char) :
    ∃ text, t = text ++ (takeName t).2 ∧ Spells (takeName t).2 text (takeName t).1 := by
  fun_induction takeName t with
  | case1 => exact ⟨[], rfl, Spells.nil⟩
  | case2 c cs hc name rest hrec ih =>
      rw [hrec] at ih
      obtain ⟨text, htext, hspells⟩ := ih
      exact ⟨c :: text, congrArg (c :: ·) htext, Spells.cons (Writes.plain hc) hspells⟩
  | case3 c cs hc hesc name rest hrec ih =>
      rw [hrec] at ih
      obtain ⟨text, htext, hspells⟩ := ih
      obtain ⟨hback, hopens⟩ := Bool.and_eq_true_iff.mp hesc
      obtain rfl := beq_iff_eq.mp hback
      obtain ⟨piece, hpiece, hwrites⟩ := exists_writes_of_opensEscape hopens
      rw [htext] at hpiece hwrites
      refine ⟨piece ++ text, by rw [hpiece, List.append_assoc], Spells.cons hwrites hspells⟩
  | case4 c cs => exact ⟨[], rfl, Spells.nil⟩

/-- In front of a text that ends a name, the spellings of `s` are what is read as `s`. -/
theorem takeName_eq_iff_spells {rest : List Char} (hrest : EndsName rest) (text s : List Char) :
    takeName (text ++ rest) = (s, rest) ↔ Spells rest text s := by
  constructor
  · intro h
    obtain ⟨text', htext, hspells⟩ := exists_spells_takeName (text ++ rest)
    rw [h] at htext hspells
    rwa [List.append_cancel_right htext]
  · intro h
    rw [h.takeName, takeName_of_endsName hrest, List.append_nil]

/-- Each way to write a character, the last a surrogate in front of the text that ends the name. -/
theorem takeName_eq_iff_spells_mixed :
    let rest := ".x".toList
    let text := "\\41 b\\0000434\\#\\0 \\d8Ff".toList
    let s := "AbC4#\uFFFD\uFFFD".toList
    EndsName rest ∧ Spells rest text s ∧ takeName (text ++ rest) = (s, rest) := by
  intro rest text s
  have hrest : EndsName rest := endsName_cons (by decide) (by decide) ['x']
  have hcode : ∀ {digits : List Char}, digits ≠ [] → digits.length ≤ 6 →
      digits.all isHexDigit = true → IsCode digits :=
    fun hne hlen hall => ⟨hne, hlen, List.all_eq_true.mp hall⟩
  have hhead : ∀ {p : Char → Bool} {c : Char} {cs : List Char}, p c = false →
      ∀ d ∈ (c :: cs).head?, p d = false := by
    rintro p c cs hc d ⟨⟩
    exact hc
  have hspells : Spells rest text s := by
    refine @Spells.cons _ ['\\', '4', '1', ' '] _ _ _ ?_ ?_
    · exact @Writes.spaced _ ['4', '1'] _ _ (hcode (by decide) (by decide) (by decide))
        (Codes.codePoint (by decide) (by decide)) (by decide)
    refine @Spells.cons _ ['b'] _ _ _ (Writes.plain (by decide)) ?_
    refine @Spells.cons _ ['\\', '0', '0', '0', '0', '4', '3'] _ _ _ ?_ ?_
    · exact Writes.bare (hcode (by decide) (by decide) (by decide))
        (Codes.codePoint (by decide) (by decide)) (Or.inl rfl) (hhead rfl)
    refine @Spells.cons _ ['4'] _ _ _ (Writes.plain (by decide)) ?_
    refine @Spells.cons _ ['\\', '#'] _ _ _ (Writes.escaped (by decide) (by decide)) ?_
    refine @Spells.cons _ ['\\', '0', ' '] _ _ _ ?_ ?_
    · exact @Writes.spaced _ ['0'] _ _ (hcode (by decide) (by decide) (by decide))
        (Codes.codeless (Or.inl (by decide))) (by decide)
    refine @Spells.cons _ ['\\', 'd', '8', 'F', 'f'] _ _ _ ?_ Spells.nil
    exact Writes.bare (hcode (by decide) (by decide) (by decide))
      (Codes.codeless (Or.inr (Or.inl (by decide)))) (Or.inr (hhead rfl)) (hhead rfl)
  exact ⟨hrest, hspells, (takeName_eq_iff_spells hrest text s).mpr hspells⟩

end UniqueSelector.Identifier
