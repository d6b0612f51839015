/-
  UniqueSelector.Identifier.Escape

  Any text without NUL can be written as one identifier. Characters that an
  identifier cannot hold as they are go behind a backslash, as themselves or as
  a hexadecimal code point that a space ends.

  * `escape` — the written form, or the place of the first NUL.
  * `Value` — what may stand for the text: a text, a truth value, or nothing.
-/

namespace UniqueSelector.Identifier

/-! ## What is written -/

/-- A value that is written as an identifier through its text. -/
inductive Value where
  | text (s : String)
  | truth (b : Bool)
  | null
  | missing
  deriving Repr, DecidableEq

/-- The text of a value: its own, or the word for it. -/
def Value.toText : Value → String
  | .text s => s
  | .truth true => "true"
  | .truth false => "false"
  | .null => "null"
  | .missing => "undefined"

/-- Why a text has no written form. -/
inductive EscapeError where
  /-- NUL stands at this character position. -/
  | nul (position : Nat)
  deriving Repr, DecidableEq

/-- The wording of an escape error. -/
def EscapeError.message : EscapeError → String
  | .nul position => s!"invalid character: U+0000 at position {position}"

/-! ## The written form -/

/-- U+0001–U+001F and U+007F–U+009F, which are written as code points. -/
def isControl (c : Char) : Bool :=
  (0x01 ≤ c.toNat && c.toNat ≤ 0x1f) || (0x7f ≤ c.toNat && c.toNat ≤ 0x9f)

/-- ASCII letters, `_` and everything beyond ASCII: what may begin a name. -/
def isNameStart (c : Char) : Bool :=
  c.isAlpha || c == '_' || 0x80 ≤ c.toNat

/-- What may stand inside a name unescaped. -/
def isNameChar (c : Char) : Bool :=
  isNameStart c || c.isDigit || c == '-'

/-- A backslash, the code point in lower-case hexadecimal, and a space. -/
def codePointEscape (c : Char) : List Char :=
  '\\' :: Nat.toDigits 16 c.toNat ++ [' ']

/-- The written form of a character inside a name. -/
def escapeInner (c : Char) : List Char :=
  if isControl c then codePointEscape c
  else if isNameChar c then [c]
  else ['\\', c]

/-- The written form of a character where a digit would not be read as part of a name. -/
def escapeLeading (c : Char) : List Char :=
  if c.isDigit then codePointEscape c else escapeInner c

/-- The written form of a text without NUL. A digit in front, or right after a hyphen in front,
    is written as a code point; a second hyphen and a lone hyphen get a backslash. -/
def escapeChars : List Char → List Char
  | [] => []
  | ['-'] => ['\\', '-']
  | '-' :: '-' :: cs => '-' :: '\\' :: '-' :: cs.flatMap escapeInner
  | '-' :: c :: cs => '-' :: escapeLeading c ++ cs.flatMap escapeInner
  | c :: cs => escapeLeading c ++ cs.flatMap escapeInner

/-- `s` written as an identifier. Fails exactly when `s` holds NUL, with its first position. -/
def escape (s : String) : Except EscapeError String :=
  match s.toList.findIdx? (· == '\x00') with
  | some position => .error (.nul position)
  | none => .ok (String.ofList (escapeChars s.toList))

/-! ## When it fails -/

theorem escape_eq_ok {s : String} (h : '\x00' ∉ s.toList) :
    escape s = .ok (String.ofList (escapeChars s.toList)) := by
  have : s.toList.findIdx? (· == '\x00') = none := by
    simpa [List.findIdx?_eq_none_iff] using fun c hc => by rintro rfl; exact h hc
  simp [escape, this]

theorem escape_isOk_iff (s : String) : (∃ e, escape s = .ok e) ↔ '\x00' ∉ s.toList := by
  refine ⟨fun ⟨e, he⟩ hmem => ?_, fun h => ⟨_, escape_eq_ok h⟩⟩
  unfold escape at he
  split at he
  · cases he
  · rename_i hnone
    rw [List.findIdx?_eq_none_iff] at hnone
    simpa using hnone _ hmem

end UniqueSelector.Identifier
