/-
  UniqueSelector.Json.Token

  The tokens of a JSON text. Texts are unescaped; of a number, `true`, `false`
  and `null` it is only kept that they stand there. A text that breaks the
  lexical rules has no tokens: a raw control character or a lone surrogate in a
  string, an escape or a word that is not known, a number without the digits it
  needs or beyond the range of a binary64 value.
-/

import UniqueSelector.Json.Magnitude
import UniqueSelector.Text.Cut
import UniqueSelector.Text.Hex

namespace UniqueSelector.Json

open Text

/-- A token of a JSON text. -/
inductive Token where
  | openObject
  | closeObject
  | openArray
  | closeArray
  | colon
  | comma
  | text (s : String)
  /-- A number, a truth value or null. -/
  | atom
  deriving Repr, DecidableEq

/-! ## Strings -/

/-- The character that a one-letter escape stands for. -/
def escaped? : Char → Option Char
  | '"' => some '"'
  | '\\' => some '\\'
  | '/' => some '/'
  | 'b' => some '\x08'
  | 'f' => some '\x0c'
  | 'n' => some '\n'
  | 'r' => some '\r'
  | 't' => some '\t'
  | _ => none

/-- Four hexadecimal digits in front, as a number. -/
def takeUnit (s : List Char) : Option (Nat × List Char) :=
  let digits := s.take 4
  if digits.length == 4 && digits.all isHexDigit then some (hexValue digits, s.drop 4) else none

/-- The number is the first half of a surrogate pair. -/
def isHighSurrogate (n : Nat) : Bool :=
  0xD800 ≤ n && n ≤ 0xDBFF

/-- The number is the second half of a surrogate pair. -/
def isLowSurrogate (n : Nat) : Bool :=
  0xDC00 ≤ n && n ≤ 0xDFFF

/-- The character that a surrogate pair stands for. -/
def charOfPair (high low : Nat) : Char :=
  Char.ofNat (0x10000 + (high - 0xD800) * 0x400 + (low - 0xDC00))

/-- The character of one UTF-16 unit or of a pair of them, from behind the first `\u`. -/
def takeUnicode (s : List Char) : Option (Char × List Char) := do
  let (first, rest) ← takeUnit s
  if isHighSurrogate first then
    let rest ← "\\u".toList.isPrefixOf? rest
    let (second, rest) ← takeUnit rest
    if isLowSurrogate second then some (charOfPair first second, rest) else none
  else if isLowSurrogate first then none
  else some (Char.ofNat first, rest)

/-- The character of an escape, from behind its backslash. -/
def takeEscaped : List Char → Option (Char × List Char)
  | [] => none
  | c :: cs => if c == 'u' then takeUnicode cs else (escaped? c).map fun d => (d, cs)

private theorem length_takeUnit {s rest : List Char} {n : Nat}
    (h : takeUnit s = some (n, rest)) : rest.length ≤ s.length := by
  simp only [takeUnit] at h
  split at h
  · cases h; simp
  · cases h

private theorem length_stripped {sep s rest : List Char}
    (h : sep.isPrefixOf? s = some rest) : rest.length ≤ s.length := by
  rw [isPrefixOf?_eq_some_iff.mp h, List.length_append]
  exact Nat.le_add_left _ _

theorem length_takeUnicode {s rest : List Char} {c : Char}
    (h : takeUnicode s = some (c, rest)) : rest.length ≤ s.length := by
  simp only [takeUnicode, Option.bind_eq_bind, Option.bind_eq_some_iff, Prod.exists] at h
  obtain ⟨first, r₁, h₁, h⟩ := h
  have l₁ := length_takeUnit h₁
  by_cases hhigh : isHighSurrogate first
  · rw [if_pos hhigh] at h
    simp only [Option.bind_eq_some_iff, Prod.exists] at h
    obtain ⟨r₂, h₂, second, r₃, h₃, h⟩ := h
    have l₂ := length_stripped h₂
    have l₃ := length_takeUnit h₃
    by_cases hlow : isLowSurrogate second
    · rw [if_pos hlow, Option.some.injEq, Prod.mk.injEq] at h
      rw [← h.2]; omega
    · rw [if_neg hlow] at h
      cases h
  · rw [if_neg hhigh] at h
    by_cases hlow : isLowSurrogate first
    · rw [if_pos hlow] at h
      cases h
    · rw [if_neg hlow, Option.some.injEq, Prod.mk.injEq] at h
      rw [← h.2]; exact l₁

theorem length_takeEscaped {s rest : List Char} {c : Char}
    (h : takeEscaped s = some (c, rest)) : rest.length ≤ s.length := by
  cases s with
  | nil => cases h
  | cons d ds =>
    simp only [takeEscaped] at h
    split at h
    · exact Nat.le_succ_of_le (length_takeUnicode h)
    · simp only [Option.map_eq_some_iff, Prod.mk.injEq] at h
      obtain ⟨e, -, -, rfl⟩ := h
      simp

/-- The contents of a string up to its closing quote. -/
def takeString (s : List Char) : Option (List Char × List Char) :=
  match s with
  | [] => none
  | '"' :: cs => some ([], cs)
  | '\\' :: cs =>
    match _h : takeEscaped cs with
    | none => none
    | some (c, rest) => (takeString rest).map fun (text, rest) => (c :: text, rest)
  | c :: cs =>
    if c.toNat < 0x20 then none
    else (takeString cs).map fun (text, rest) => (c :: text, rest)
termination_by s.length
decreasing_by
  · exact Nat.lt_succ_of_le (length_takeEscaped ‹_›)
  · simp

/-! ## Numbers -/

/-- The digits in front and what follows. -/
def takeDigits (s : List Char) : List Char × List Char :=
  (s.takeWhile Char.isDigit, s.dropWhile Char.isDigit)

/-- The digits after a point, if there is one; then at least one is needed. -/
def takeFraction : List Char → Option (List Char × List Char)
  | '.' :: cs => if (takeDigits cs).1.isEmpty then none else some (takeDigits cs)
  | s => some ([], s)

/-- The sign in front, if there is one, and what follows. -/
def takeSign : List Char → Int × List Char
  | '-' :: cs => (-1, cs)
  | '+' :: cs => (1, cs)
  | s => (1, s)

/-- The exponent, if there is one; then at least one digit is needed. -/
def takeExponent : List Char → Option (Int × List Char)
  | [] => some (0, [])
  | c :: cs =>
    if c == 'e' || c == 'E' then
      let (sign, rest) := takeSign cs
      let (digits, rest) := takeDigits rest
      if digits.isEmpty then none else some (sign * decimalValue digits, rest)
    else some (0, c :: cs)

/-- What follows a number without sign. A zero in front is all of the whole part. -/
def takeNumber (s : List Char) : Option (List Char) := do
  let (whole, rest) := match s with
    | '0' :: cs => (['0'], cs)
    | s => takeDigits s
  if whole.isEmpty then none
  else
    let (fraction, rest) ← takeFraction rest
    let (exponent, rest) ← takeExponent rest
    if overflows whole fraction exponent then none else some rest

/-! ## Tokens -/

/-- The four characters that may stand between tokens. -/
def isSeparator (c : Char) : Bool :=
  c == ' ' || c == '\t' || c == '\n' || c == '\r'

/-- The token that begins with `c`, and what follows it. -/
def takeToken (c : Char) (cs : List Char) : Option (Token × List Char) :=
  match c with
  | '{' => some (.openObject, cs)
  | '}' => some (.closeObject, cs)
  | '[' => some (.openArray, cs)
  | ']' => some (.closeArray, cs)
  | ':' => some (.colon, cs)
  | ',' => some (.comma, cs)
  | '"' => (takeString cs).map fun (text, rest) => (.text (String.ofList text), rest)
  | 't' => ("rue".toList.isPrefixOf? cs).map fun rest => (.atom, rest)
  | 'f' => ("alse".toList.isPrefixOf? cs).map fun rest => (.atom, rest)
  | 'n' => ("ull".toList.isPrefixOf? cs).map fun rest => (.atom, rest)
  | '-' => (takeNumber cs).map fun rest => (.atom, rest)
  | c => (takeNumber (c :: cs)).map fun rest => (.atom, rest)

private theorem length_takeDigits (s : List Char) :
    (takeDigits s).2.length + (takeDigits s).1.length = s.length := by
  have := congrArg List.length (List.takeWhile_append_dropWhile (p := Char.isDigit) (l := s))
  simp only [List.length_append] at this
  simp only [takeDigits]; omega

private theorem length_takeFraction {s rest digits : List Char}
    (h : takeFraction s = some (digits, rest)) : rest.length ≤ s.length := by
  unfold takeFraction at h
  split at h
  · rename_i cs
    split at h
    · cases h
    · have := length_takeDigits cs
      simp only [Option.some.injEq] at h
      rw [h] at this
      simp only [List.length_cons] at *; omega
  · cases h; exact Nat.le_refl _

private theorem length_takeExponent {s rest : List Char} {n : Int}
    (h : takeExponent s = some (n, rest)) : rest.length ≤ s.length := by
  cases s with
  | nil => cases h; simp
  | cons c cs =>
    simp only [takeExponent] at h
    split at h
    · have hdigits := length_takeDigits (takeSign cs).2
      have hsign : (takeSign cs).2.length ≤ cs.length := by unfold takeSign; split <;> simp
      split at h
      · cases h
      · simp only [Option.some.injEq, Prod.mk.injEq] at h
        rw [← h.2]
        simp only [List.length_cons]; omega
    · cases h; exact Nat.le_refl _

private theorem length_takeNumber {s rest : List Char} (h : takeNumber s = some rest) :
    rest.length < s.length := by
  have step : ∀ whole r : List Char, r.length + whole.length ≤ s.length →
      (if whole.isEmpty then none
        else do
          let (fraction, rest) ← takeFraction r
          let (exponent, rest) ← takeExponent rest
          if overflows whole fraction exponent then none else some rest) = some rest →
      rest.length < s.length := by
    intro whole r hr h
    split at h
    · cases h
    · rename_i hne
      simp only [Option.bind_eq_bind, Option.bind_eq_some_iff, Prod.exists] at h
      obtain ⟨fraction, r₁, h₁, exponent, r₂, h₂, h⟩ := h
      have l₁ := length_takeFraction h₁
      have l₂ := length_takeExponent h₂
      have : 0 < whole.length := by
        cases whole with
        | nil => simp at hne
        | cons => simp
      split at h
      · cases h
      · cases h; omega
  unfold takeNumber at h
  split at h
  rename_i whole r heq
  refine step whole r ?_ h
  split at heq
  · cases heq; simp
  · have := length_takeDigits s
    rw [heq] at this
    exact Nat.le_of_eq this

theorem length_takeString {s rest text : List Char} (h : takeString s = some (text, rest)) :
    rest.length ≤ s.length := by
  fun_induction takeString s generalizing text with
  | case1 => cases h
  | case2 => cases h; simp
  | case3 => cases h
  | case4 cs c r hesc ih =>
    simp only [Option.map_eq_some_iff, Prod.mk.injEq, Prod.exists] at h
    obtain ⟨t, r', hrec, -, rfl⟩ := h
    have := ih hrec
    have := length_takeEscaped hesc
    simp only [List.length_cons]; omega
  | case5 => cases h
  | case6 c cs _ _ _ ih =>
    simp only [Option.map_eq_some_iff, Prod.mk.injEq, Prod.exists] at h
    obtain ⟨t, r', hrec, -, rfl⟩ := h
    exact Nat.le_succ_of_le (ih hrec)

theorem length_takeToken {c : Char} {cs rest : List Char} {token : Token}
    (h : takeToken c cs = some (token, rest)) : rest.length ≤ cs.length := by
  unfold takeToken at h
  split at h <;> simp only [Option.some.injEq, Option.map_eq_some_iff, Prod.mk.injEq,
    Prod.exists] at h
  · exact h.2 ▸ Nat.le_refl _
  · exact h.2 ▸ Nat.le_refl _
  · exact h.2 ▸ Nat.le_refl _
  · exact h.2 ▸ Nat.le_refl _
  · exact h.2 ▸ Nat.le_refl _
  · exact h.2 ▸ Nat.le_refl _
  · obtain ⟨t, r, hs, -, rfl⟩ := h; exact length_takeString hs
  · obtain ⟨r, hs, -, rfl⟩ := h; exact length_stripped hs
  · obtain ⟨r, hs, -, rfl⟩ := h; exact length_stripped hs
  · obtain ⟨r, hs, -, rfl⟩ := h; exact length_stripped hs
  · obtain ⟨r, hs, -, rfl⟩ := h; exact Nat.le_of_lt (length_takeNumber hs)
  · obtain ⟨r, hs, -, rfl⟩ := h; exact Nat.le_of_lt_succ (length_takeNumber hs)

/-- The tokens of a text, if it keeps the lexical rules. -/
def tokens? (s : List Char) : Option (List Token) :=
  match s with
  | [] => some []
  | c :: cs =>
    if isSeparator c then tokens? cs
    else
      match _h : takeToken c cs with
      | none => none
      | some (token, rest) => (tokens? rest).map (token :: ·)
termination_by s.length
decreasing_by
  · simp
  · exact Nat.lt_succ_of_le (length_takeToken ‹_›)

end UniqueSelector.Json
