/-
  UniqueSelector.Proofs.Identifier.RoundTrip

  What is written as an identifier reads back as the text it was written for,
  as a name and inside a string of either quote.

  The written form is a run of pieces, one for each character of the text. A
  piece is a name character, or a backslash with an escape body that stands for
  the character whatever comes after it. Both readers take such a run piece by
  piece, so neither needs to know the rules by which a piece was chosen.

    * `EscapeBody`, `Piece`, `Pieces` — the run.
    * `pieces_escapeChars` — the written form is one.
    * `infix_escapeChars` — what is written as it is stands in the written form.
    * `shielded_escapeChars` — a `>` stands there behind a backslash only.
    * `takeName_pieces`, `takeQuoted_pieces` — the two readers on a run.
    * `startsName_escapeChars` — the written form looks like a name.
-/

import UniqueSelector.Proofs.Text.Digits
import UniqueSelector.Selector.Reading

namespace UniqueSelector.Identifier

open Text Selector

/-! ## Escapes -/

/-- Behind a backslash, `body` stands for `c`, whatever follows it. -/
structure EscapeBody (body : List Char) (c : Char) : Prop where
  ne_nil : body ≠ []
  opens : ∀ rest, opensEscape (body ++ rest) = true
  reads : ∀ rest, takeEscape (body ++ rest) = (c, rest)

theorem takeWhile_take_append {p : Char → Bool} {ds rest : List Char} {n : Nat}
    (hds : ∀ d ∈ ds, p d = true) (hlen : ds.length ≤ n)
    (hstop : ds.length = n ∨ ∀ d ∈ rest.head?, p d = false) :
    ((ds ++ rest).take n).takeWhile p = ds := by
  rw [List.take_append, List.take_of_length_le hlen, List.takeWhile_append_of_pos hds]
  rcases hstop with hfull | hstop
  · rw [hfull, Nat.sub_self, List.take_zero, List.takeWhile_nil, List.append_nil]
  · cases rest with
    | nil => rw [List.take_nil, List.takeWhile_nil, List.append_nil]
    | cons r rs =>
        have hr : p r = false := hstop r (by simp)
        cases n - ds.length with
        | zero => rw [List.take_zero, List.takeWhile_nil, List.append_nil]
        | succ m =>
            rw [List.take_succ_cons, List.takeWhile_cons_of_neg (by simp [hr]), List.append_nil]

/-- One to six hexadecimal digits are read together, and a blank behind them is dropped. -/
theorem takeEscape_hex {c : Char} {ds rest : List Char} (hc : isHexDigit c = true)
    (hds : ∀ d ∈ ds, isHexDigit d = true) (hlen : ds.length ≤ 5)
    (hstop : ds.length = 5 ∨ ∀ d ∈ rest.head?, isHexDigit d = false) :
    takeEscape (c :: ds ++ rest) = (charOfCodePoint (hexValue (c :: ds)), skipOneSpace rest) := by
  rw [List.cons_append, takeEscape, if_pos hc]
  simp only [takeWhile_take_append hds hlen hstop, List.drop_left]

/-- A text is cut behind its first five hexadecimal digits, or where the digits end. -/
theorem exists_hexRun (s : List Char) :
    ∃ digits rest, s = digits ++ rest ∧ (∀ d ∈ digits, isHexDigit d = true) ∧
      digits.length ≤ 5 ∧ (digits.length = 5 ∨ ∀ d ∈ rest.head?, isHexDigit d = false) := by
  -- The induction is on how many digits may still come.
  generalize 5 = n
  induction n generalizing s with
  | zero => exact ⟨[], s, rfl, by simp, Nat.le_refl 0, Or.inl rfl⟩
  | succ n ih =>
      cases s with
      | nil => exact ⟨[], [], rfl, by simp, by simp, Or.inr (by simp)⟩
      | cons c cs =>
          by_cases hc : isHexDigit c = true
          · obtain ⟨digits, rest, rfl, hdigits, hlen, hstop⟩ := ih cs
            refine ⟨c :: digits, rest, rfl, ?_, by simpa using hlen, by simpa using hstop⟩
            exact List.forall_mem_cons.mpr ⟨hc, hdigits⟩
          · exact ⟨[], c :: cs, rfl, by simp, by simp, Or.inr (by simpa using hc)⟩

theorem opensEscape_cons {c : Char} (hc : c ≠ '\n') (rest : List Char) :
    opensEscape (c :: rest) = true := by
  unfold opensEscape
  split
  · rename_i h
    exact absurd (List.cons.inj h).1 hc
  · rfl

theorem charOfCodePoint_toNat {c : Char} (hc : c ≠ '\x00') : charOfCodePoint c.toNat = c := by
  have hvalid : c.toNat.isValidChar := c.valid
  have hne : c.toNat ≠ 0 := by
    intro h
    exact hc (Char.ext (UInt32.toNat_inj.mp h))
  rw [charOfCodePoint, if_pos (by simp [hne, hvalid]), Char.ofNat_toNat]

/-- A code point in hexadecimal and a space stand for the character. -/
theorem escapeBody_codePoint {c : Char} (hc : c ≠ '\x00') :
    EscapeBody (Nat.toDigits 16 c.toNat ++ [' ']) c := by
  have hhex : ∀ d ∈ Nat.toDigits 16 c.toNat, isHexDigit d = true :=
    fun d hd => isHexDigit_of_mem_toDigits hd
  have hlen : (Nat.toDigits 16 c.toNat).length ≤ 6 := by
    rw [Nat.length_toDigits_le_iff (by decide) (by decide)]
    have hvalid : c.toNat < 0xd800 ∨ 0xdfff < c.toNat ∧ c.toNat < 0x110000 := c.valid
    omega
  have hval := hexValue_toDigits c.toNat
  cases hdigits : Nat.toDigits 16 c.toNat with
  | nil => exact absurd hdigits Nat.toDigits_ne_nil
  | cons d ds =>
      rw [hdigits] at hhex hlen hval
      have hd : isHexDigit d = true := hhex d List.mem_cons_self
      have hds : ∀ x ∈ ds, isHexDigit x = true := fun x hx => hhex x (List.mem_cons_of_mem _ hx)
      refine ⟨by simp, fun rest => ?_, fun rest => ?_⟩
      · have hne : d ≠ '\n' := by rintro rfl; exact absurd hd (by decide)
        exact opensEscape_cons hne _
      · -- The space that closes the digits is read with them.
        have hstop : ∀ x ∈ (' ' :: rest).head?, isHexDigit x = false := by
          intro x hx
          rw [← Option.some.inj hx]
          decide
        have hread := takeEscape_hex hd hds (Nat.le_of_succ_le_succ hlen) (Or.inr hstop)
        rw [List.append_assoc, List.singleton_append, hread, hval, charOfCodePoint_toNat hc]
        rfl

/-- A character that is neither a hexadecimal digit nor a line feed stands for itself. -/
theorem escapeBody_self {c : Char} (hhex : isHexDigit c = false) (hline : c ≠ '\n') :
    EscapeBody [c] c := by
  refine ⟨by simp, fun rest => ?_, fun rest => ?_⟩
  · exact opensEscape_cons hline _
  · rw [List.singleton_append, takeEscape, if_neg (by simp [hhex])]

/-! ## Pieces -/

/-- `piece` is one way to write `c` inside a name. -/
inductive Piece : List Char → Char → Prop
  | plain {c : Char} (h : isNameChar c = true) : Piece [c] c
  | escaped {body : List Char} {c : Char} (h : EscapeBody body c) : Piece ('\\' :: body) c

/-- `text` is a piece for each character of `s`, one after the other. -/
inductive Pieces : List Char → List Char → Prop
  | nil : Pieces [] []
  | cons {piece text : List Char} {c : Char} {s : List Char} (hc : Piece piece c)
      (hs : Pieces text s) : Pieces (piece ++ text) (c :: s)

/-- A character that no name can hold as it stands, and that is no control character. -/
theorem escapeBody_of_not_isNameChar {c : Char} (hctl : isControl c = false)
    (hname : isNameChar c = false) : EscapeBody [c] c := by
  have hhex : isHexDigit c = false := by
    rw [Bool.eq_false_iff]
    intro h
    have hname' : isNameChar c = true := by
      unfold isNameChar isNameStart Char.isAlpha Char.isUpper Char.isLower
      simp only [isHexDigit, Bool.or_eq_true, Bool.and_eq_true, decide_eq_true_eq, ge_iff_le,
        UInt32.le_iff_toNat_le, Char.le_def] at h ⊢
      -- Hexadecimal digits are digits and letters, and names may hold both.
      have hA : 'A'.val.toNat = 65 := rfl
      have hF : 'F'.val.toNat = 70 := rfl
      have hZ : 'Z'.val.toNat = 90 := rfl
      have ha : 'a'.val.toNat = 97 := rfl
      have hf : 'f'.val.toNat = 102 := rfl
      have hz : 'z'.val.toNat = 122 := rfl
      rcases h with (h | h) | h
      · exact Or.inl (Or.inr h)
      · exact Or.inl (Or.inl (Or.inl (Or.inl (Or.inr (by omega)))))
      · exact Or.inl (Or.inl (Or.inl (Or.inl (Or.inl (by omega)))))
    rw [hname] at hname'
    cases hname'
  have hline : c ≠ '\n' := by rintro rfl; exact absurd hctl (by decide)
  exact escapeBody_self hhex hline

theorem piece_escapeInner {c : Char} (hc : c ≠ '\x00') : Piece (escapeInner c) c := by
  rw [escapeInner]
  split
  · exact Piece.escaped (escapeBody_codePoint hc)
  · rename_i hctl
    split
    · rename_i hname
      exact Piece.plain hname
    · rename_i hname
      have hbody := escapeBody_of_not_isNameChar (by simpa using hctl) (by simpa using hname)
      exact Piece.escaped hbody

theorem piece_escapeLeading {c : Char} (hc : c ≠ '\x00') : Piece (escapeLeading c) c := by
  rw [escapeLeading]
  split
  · exact Piece.escaped (escapeBody_codePoint hc)
  · exact piece_escapeInner hc

theorem pieces_flatMap_escapeInner {s : List Char} (hs : '\x00' ∉ s) :
    Pieces (s.flatMap escapeInner) s := by
  induction s with
  | nil => exact Pieces.nil
  | cons c cs ih =>
      have hc : c ≠ '\x00' := fun h => hs (h ▸ List.mem_cons_self)
      rw [List.flatMap_cons]
      exact Pieces.cons (piece_escapeInner hc) (ih fun h => hs (List.mem_cons_of_mem _ h))

theorem piece_hyphen : Piece ['\\', '-'] '-' :=
  Piece.escaped (escapeBody_self (by decide) (by decide))

/-- The written form of a text without NUL is a run of pieces for it. -/
theorem pieces_escapeChars {s : List Char} (hs : '\x00' ∉ s) : Pieces (escapeChars s) s := by
  have hplain : Piece ['-'] '-' := Piece.plain (by decide)
  fun_cases escapeChars s with
  | case1 => exact Pieces.nil
  | case2 => exact Pieces.cons piece_hyphen Pieces.nil
  | case3 cs =>
      have hcs : '\x00' ∉ cs := by simp_all
      exact Pieces.cons hplain (Pieces.cons piece_hyphen (pieces_flatMap_escapeInner hcs))
  | case4 c cs hne =>
      have hc : c ≠ '\x00' := by rintro rfl; simp at hs
      have hcs : '\x00' ∉ cs := by simp_all
      have hrest := Pieces.cons (piece_escapeLeading hc) (pieces_flatMap_escapeInner hcs)
      show Pieces (['-'] ++ (escapeLeading c ++ cs.flatMap escapeInner)) ('-' :: c :: cs)
      exact Pieces.cons hplain hrest
  | case5 c cs =>
      have hc : c ≠ '\x00' := by rintro rfl; simp at hs
      have hcs : '\x00' ∉ cs := by simp_all
      exact Pieces.cons (piece_escapeLeading hc) (pieces_flatMap_escapeInner hcs)

/-! ## Blocks written as they are -/

/-- The character is written as it is wherever it stands. -/
structure WrittenPlain (c : Char) : Prop where
  inner : escapeInner c = [c]
  not_digit : c.isDigit = false
  ne_hyphen : c ≠ '-'

section Blocks

variable {block : List Char} (hblock : ∀ c ∈ block, WrittenPlain c)

include hblock

theorem flatMap_escapeInner_block : block.flatMap escapeInner = block := by
  induction block with
  | nil => rfl
  | cons c cs ih =>
      rw [List.flatMap_cons, (hblock c List.mem_cons_self).inner,
        ih fun d hd => hblock d (List.mem_cons_of_mem _ hd)]
      rfl

theorem prefix_flatMap_escapeInner {s : List Char} (h : block <+: s) :
    block <+: s.flatMap escapeInner := by
  obtain ⟨after, rfl⟩ := h
  rw [List.flatMap_append, flatMap_escapeInner_block hblock]
  exact List.prefix_append _ _

theorem infix_flatMap_escapeInner {s : List Char} (h : block <:+: s) :
    block <:+: s.flatMap escapeInner := by
  obtain ⟨before, after, rfl⟩ := h
  rw [List.flatMap_append, List.flatMap_append, flatMap_escapeInner_block hblock]
  exact List.infix_append _ _ _

/-- A block in which no hyphen stands cannot begin with one. -/
theorem infix_of_infix_hyphen {s : List Char} (h : block <:+: '-' :: s) : block <:+: s := by
  rcases List.infix_cons_iff.mp h with hprefix | hinfix
  · cases block with
    | nil => exact List.nil_infix
    | cons c cs =>
        obtain ⟨rfl, -⟩ := List.cons_prefix_cons.mp hprefix
        exact absurd rfl (hblock '-' List.mem_cons_self).ne_hyphen
  · exact hinfix

theorem infix_escapeLeading {c : Char} {cs : List Char} (h : block <:+: c :: cs) :
    block <:+: escapeLeading c ++ cs.flatMap escapeInner := by
  rcases List.infix_cons_iff.mp h with hprefix | hinfix
  · cases block with
    | nil => exact List.nil_infix
    | cons d ds =>
        -- The block begins with the first character, which is not a digit then.
        obtain ⟨rfl, hds⟩ := List.cons_prefix_cons.mp hprefix
        have hd := hblock d List.mem_cons_self
        have hrest := prefix_flatMap_escapeInner
          (fun x hx => hblock x (List.mem_cons_of_mem _ hx)) hds
        rw [escapeLeading, if_neg (by simp [hd.not_digit]), hd.inner]
        exact (List.cons_prefix_cons.mpr ⟨rfl, hrest⟩).isInfix
  · exact (infix_flatMap_escapeInner hblock hinfix).trans (List.suffix_append _ _).isInfix

/-- A block of such characters stands in the written form of every text it stands in. -/
theorem infix_escapeChars {s : List Char} (h : block <:+: s) : block <:+: escapeChars s := by
  fun_cases escapeChars s with
  | case1 => exact h
  | case2 =>
      rw [List.eq_nil_of_infix_nil (infix_of_infix_hyphen hblock h)]
      exact List.nil_infix
  | case3 cs =>
      have hcs := infix_of_infix_hyphen hblock (infix_of_infix_hyphen hblock h)
      have hrest := infix_flatMap_escapeInner hblock hcs
      exact hrest.trans (List.suffix_append ['-', '\\', '-'] _).isInfix
  | case4 c cs hne =>
      have hcs := infix_escapeLeading hblock (infix_of_infix_hyphen hblock h)
      exact hcs.trans (List.suffix_append ['-'] _).isInfix
  | case5 c cs => exact infix_escapeLeading hblock h

end Blocks

/-! ## What stands behind a backslash -/

/-- Every `>` of the text stands right behind a backslash. -/
def Shielded (text : List Char) : Prop :=
  ∀ before after, text = before ++ '>' :: after → ∃ front, before = front ++ ['\\']

theorem shielded_of_not_mem {text : List Char} (h : '>' ∉ text) : Shielded text := by
  rintro before after rfl
  exact absurd (List.mem_append_right _ List.mem_cons_self) h

theorem Shielded.append {text text' : List Char} (h : Shielded text) (h' : Shielded text') :
    Shielded (text ++ text') := by
  intro before after hcut
  rcases List.append_eq_append_iff.mp hcut with ⟨between, rfl, htext'⟩ | ⟨between, htext, hafter⟩
  · obtain ⟨front, rfl⟩ := h' between after htext'
    exact ⟨text ++ front, (List.append_assoc _ _ _).symm⟩
  · cases between with
    | nil =>
        -- The cut is between the two texts.
        rw [List.append_nil] at htext
        rw [List.nil_append] at hafter
        obtain ⟨front, hfront⟩ := h' [] after hafter.symm
        simp at hfront
    | cons c rest =>
        rw [List.cons_append, List.cons.injEq] at hafter
        obtain ⟨rfl, -⟩ := hafter
        exact h before rest htext

theorem shielded_codePointEscape (c : Char) : Shielded (codePointEscape c) := by
  apply shielded_of_not_mem
  rw [codePointEscape]
  intro h
  rcases List.mem_append.mp h with h | h
  · rcases List.mem_cons.mp h with h | h
    · exact absurd h (by decide)
    · exact absurd (isHexDigit_of_mem_toDigits h) (by decide)
  · exact absurd h (by decide)

theorem shielded_escapeInner (c : Char) : Shielded (escapeInner c) := by
  rw [escapeInner]
  split
  · exact shielded_codePointEscape c
  · split
    · rename_i hname
      apply shielded_of_not_mem
      intro h
      rw [List.mem_singleton] at h
      rw [← h] at hname
      exact absurd hname (by decide)
    · intro before after hcut
      rcases List.cons_eq_append_iff.mp hcut with ⟨-, hafter⟩ | ⟨front, rfl, hfront⟩
      · exact absurd (List.cons.inj hafter).1 (by decide)
      · cases front with
        | nil => exact ⟨[], rfl⟩
        | cons d front => simp at hfront

theorem shielded_flatMap_escapeInner (s : List Char) : Shielded (s.flatMap escapeInner) := by
  induction s with
  | nil => exact shielded_of_not_mem List.not_mem_nil
  | cons c cs ih => exact (shielded_escapeInner c).append ih

theorem shielded_escapeLeading (c : Char) : Shielded (escapeLeading c) := by
  rw [escapeLeading]
  split
  · exact shielded_codePointEscape c
  · exact shielded_escapeInner c

theorem shielded_escapeChars (s : List Char) : Shielded (escapeChars s) := by
  fun_cases escapeChars s with
  | case1 => exact shielded_of_not_mem List.not_mem_nil
  | case2 => exact shielded_of_not_mem (by decide)
  | case3 cs =>
      show Shielded (['-', '\\', '-'] ++ cs.flatMap escapeInner)
      exact (shielded_of_not_mem (by decide)).append (shielded_flatMap_escapeInner cs)
  | case4 c cs =>
      have hrest := (shielded_escapeLeading c).append (shielded_flatMap_escapeInner cs)
      show Shielded (['-'] ++ (escapeLeading c ++ cs.flatMap escapeInner))
      exact (shielded_of_not_mem (by decide)).append hrest
  | case5 c cs => exact (shielded_escapeLeading c).append (shielded_flatMap_escapeInner cs)

/-! ## Reading a name -/

theorem takeName_piece {piece : List Char} {c : Char} (h : Piece piece c) (rest : List Char) :
    takeName (piece ++ rest) = (c :: (takeName rest).1, (takeName rest).2) := by
  cases h with
  | plain h => exact takeName_cons_of_isNameChar h rest
  | escaped h => rw [List.cons_append, takeName_backslash (h.opens rest), h.reads rest]

/-- A name reader takes a run of pieces and goes on with what follows. -/
theorem takeName_pieces {text s : List Char} (h : Pieces text s) (rest : List Char) :
    takeName (text ++ rest) = (s ++ (takeName rest).1, (takeName rest).2) := by
  induction h with
  | nil => rfl
  | cons hc hs ih => rw [List.append_assoc, takeName_piece hc, ih, List.cons_append]

/-- No name reaches into `rest`. -/
def EndsName (rest : List Char) : Prop :=
  ∀ c ∈ rest.head?, isNameChar c = false ∧ c ≠ '\\'

theorem endsName_cons {c : Char} (hname : isNameChar c = false) (hback : c ≠ '\\')
    (rest : List Char) : EndsName (c :: rest) := by
  intro d hd
  rw [← Option.some.inj hd]
  exact ⟨hname, hback⟩

theorem takeName_of_endsName {rest : List Char} (h : EndsName rest) :
    takeName rest = ([], rest) := by
  cases rest with
  | nil => exact takeName_nil
  | cons c cs =>
      obtain ⟨hname, hback⟩ := h c rfl
      rw [takeName, if_neg (by simp [hname]), if_neg (by simp [hback])]

/-- A name in its written form is read back, up to where it ends. -/
theorem takeName_escapeChars {s rest : List Char} (hs : '\x00' ∉ s) (hrest : EndsName rest) :
    takeName (escapeChars s ++ rest) = (s, rest) := by
  rw [takeName_pieces (pieces_escapeChars hs), takeName_of_endsName hrest, List.append_nil]

/-! ## Reading a string -/

/-- The two characters that may stand around a string. -/
def IsQuote (c : Char) : Prop :=
  c = '"' ∨ c = '\''

theorem takeQuoted_end (quote : Char) (rest : List Char) :
    takeQuoted quote (quote :: rest) = .ok ([], rest) := by
  rw [takeQuoted, if_pos (by simp)]

theorem takeQuoted_plain {quote c : Char} {rest value left : List Char} (hquote : c ≠ quote)
    (hline : c ≠ '\n') (hback : c ≠ '\\') (h : takeQuoted quote rest = .ok (value, left)) :
    takeQuoted quote (c :: rest) = .ok (c :: value, left) := by
  rw [takeQuoted, if_neg (by simp [hquote]), if_neg (by simp [hline]), if_neg (by simp [hback]), h]
  rfl

theorem takeQuoted_escaped {quote c : Char} {body rest value left : List Char}
    (hquote : quote ≠ '\\') (hbody : EscapeBody body c)
    (h : takeQuoted quote rest = .ok (value, left)) :
    takeQuoted quote ('\\' :: (body ++ rest)) = .ok (c :: value, left) := by
  have hne : body ++ rest ≠ [] := List.append_ne_nil_of_left_ne_nil hbody.ne_nil rest
  rw [takeQuoted, if_neg (by simp [Ne.symm hquote]), if_neg (by decide), if_pos (by decide),
    if_neg (by simpa using hne), if_pos (hbody.opens rest), hbody.reads rest, h]
  rfl

theorem takeQuoted_piece {quote c : Char} {piece rest value left : List Char}
    (hquote : IsQuote quote) (hc : Piece piece c) (h : takeQuoted quote rest = .ok (value, left)) :
    takeQuoted quote (piece ++ rest) = .ok (c :: value, left) := by
  have hback : quote ≠ '\\' := by rcases hquote with rfl | rfl <;> decide
  cases hc with
  | plain hname =>
      -- None of the three characters that mean something inside a string is in a name.
      have hne : ∀ d, isNameChar d = false → c ≠ d := by
        rintro d hd rfl
        rw [hname] at hd
        cases hd
      have hcq : isNameChar quote = false := by rcases hquote with rfl | rfl <;> decide
      exact takeQuoted_plain (hne _ hcq) (hne _ (by decide)) (hne _ (by decide)) h
  | escaped hbody => exact takeQuoted_escaped hback hbody h

/-- A string reader takes a run of pieces up to the closing quote. -/
theorem takeQuoted_pieces {quote : Char} {text s : List Char} (hquote : IsQuote quote)
    (h : Pieces text s) (rest : List Char) :
    takeQuoted quote (text ++ quote :: rest) = .ok (s, rest) := by
  induction h with
  | nil => exact takeQuoted_end quote rest
  | cons hc hs ih =>
      rw [List.append_assoc]
      exact takeQuoted_piece hquote hc ih

/-! ## Where a name can begin -/

/-- `text` begins a name, and does so behind a hyphen as well. -/
def BeginsName (text : List Char) : Prop :=
  startsName text = true ∧ startsName ('-' :: text) = true

theorem beginsName_of_isNameStart {c : Char} (h : isNameStart c = true) (rest : List Char) :
    BeginsName (c :: rest) := by
  have hhyphen : c ≠ '-' := by rintro rfl; exact absurd h (by decide)
  have hback : c ≠ '\\' := by rintro rfl; exact absurd h (by decide)
  exact ⟨by rw [startsName_cons hhyphen hback, h], by simp [startsName, h]⟩

theorem beginsName_backslash {rest : List Char} (h : opensEscape rest = true) :
    BeginsName ('\\' :: rest) := by
  refine ⟨h, ?_⟩
  simp [startsName, h]

theorem beginsName_escapeLeading {c : Char} (hc : c ≠ '\x00') (hhyphen : c ≠ '-')
    (rest : List Char) : BeginsName (escapeLeading c ++ rest) := by
  have hpiece := piece_escapeLeading hc
  cases hform : escapeLeading c with
  | nil => rw [hform] at hpiece; cases hpiece
  | cons d ds =>
      rw [hform] at hpiece
      cases hpiece with
      | plain hname =>
          -- A digit would have been written as a code point.
          have hdigit : c.isDigit = false := by
            rw [Bool.eq_false_iff]
            intro hdigit
            rw [escapeLeading, if_pos hdigit] at hform
            have hlen := congrArg List.length hform
            simp [codePointEscape] at hlen
          have hstart : isNameStart c = true := by
            simpa [isNameChar, hdigit, hhyphen] using hname
          exact beginsName_of_isNameStart hstart rest
      | escaped hbody =>
          rw [List.cons_append]
          exact beginsName_backslash (hbody.opens rest)

/-- What is written for a text that is not empty looks like a name. -/
theorem startsName_escapeChars {s : List Char} (hs : '\x00' ∉ s) (hne : s ≠ [])
    (rest : List Char) : startsName (escapeChars s ++ rest) = true := by
  fun_cases escapeChars s with
  | case1 => exact absurd rfl hne
  | case2 => rfl
  | case3 cs => rfl
  | case4 c cs hc =>
      have hnul : c ≠ '\x00' := by rintro rfl; simp at hs
      rw [List.append_assoc]
      exact (beginsName_escapeLeading hnul hc _).2
  | case5 c cs hlone htwo hmore =>
      -- A hyphen in front is one of the cases before.
      have hnul : c ≠ '\x00' := by rintro rfl; simp at hs
      have hhyphen : c ≠ '-' := by
        rintro rfl
        cases cs with
        | nil => exact hlone rfl rfl
        | cons d ds => exact hmore d ds rfl rfl
      rw [List.append_assoc]
      exact (beginsName_escapeLeading hnul hhyphen _).1

end UniqueSelector.Identifier
