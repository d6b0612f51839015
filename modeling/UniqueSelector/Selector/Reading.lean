/-
  UniqueSelector.Selector.Reading

  How a selector is read from its text. Each reader takes what it can off the
  front of a list of characters and hands back what it read with the rest, or a
  fault that says how many characters were left when it stopped.

  * `takeQuoted` — a string, after its opening quote.
  * `takeAttribute`, `takePseudo` — a condition, after its `[` or `:`.
  * `takeSimple`, `takeCompound`, `takeCombinator` — the parts of a chain.
  * `Selector.ofString` — the whole text.

  No reader lengthens the rest (`takeQuoted_le` and its like), and those that a
  loop calls shorten it (`takeSimple_lt`, `takeCompound_lt`), so reading ends.
-/

import UniqueSelector.Identifier.Reading
import UniqueSelector.Selector.Basic
import UniqueSelector.Selector.Error

namespace UniqueSelector

open Text Identifier

/-! ## Faults -/

/-- A selector error in terms of what was left to read. -/
inductive Fault where
  /-- So many characters were left when an expectation failed. -/
  | expected (left : Nat) (expectation : Expectation)
  | unsupported (name : String)
  deriving Repr, DecidableEq

/-- The fault of an expectation that fails in front of `rest`. -/
def failAt {α : Type} (rest : List Char) (expectation : Expectation) : Except Fault α :=
  .error (.expected rest.length expectation)

namespace Selector

/-! ## Strings -/

/-- The contents of a string up to its closing quote, unescaped. A backslash takes a line feed
    out of the string, and does nothing at the end of the text. -/
def takeQuoted (quote : Char) : List Char → Except Fault (List Char × List Char)
  | [] => failAt [] .stringEnd
  | c :: cs =>
    if c == quote then .ok ([], cs)
    else if c == '\n' then failAt cs .stringLine
    else if c == '\\' then
      if cs == [] then failAt [] .stringEnd
      else if opensEscape cs then do
        let (value, rest) ← takeQuoted quote (takeEscape cs).2
        pure ((takeEscape cs).1 :: value, rest)
      -- The backslash and the line feed behind it leave the value.
      else takeQuoted quote cs.tail
    else do
      let (value, rest) ← takeQuoted quote cs
      pure (c :: value, rest)
termination_by s => s.length
decreasing_by
  · exact Nat.lt_succ_of_le (length_takeEscape_le cs)
  · simp only [List.length_tail, List.length_cons]; omega
  · simp

/-! ## Attribute conditions -/

/-- The name of the attribute. -/
def takeAttributeName (s : List Char) : Except Fault (String × List Char) :=
  if startsName s then .ok (String.ofList (takeName s).1, (takeName s).2)
  else failAt s .attributeName

/-- The operator, or nothing where the condition ends at once. -/
def takeOperator : List Char → Except Fault (Option AttributeOperator × List Char)
  | [] => failAt [] .attributeOperator
  | c :: cs =>
    if c == ']' then .ok (none, cs)
    else if c == '=' then .ok (some .equals, cs)
    else match AttributeOperator.ofMark? c with
      | none => failAt cs .attributeOperator
      | some operator =>
        if cs.head? == some '=' then .ok (some operator, cs.tail)
        -- The character found in place of the `=` counts as read.
        else failAt cs.tail .attributeEquals

/-- The value to compare with: a string or a name. -/
def takeValue (s : List Char) : Except Fault (String × List Char) :=
  match s with
  | '"' :: cs => do
    let (value, rest) ← takeQuoted '"' cs
    pure (String.ofList value, rest)
  | '\'' :: cs => do
    let (value, rest) ← takeQuoted '\'' cs
    pure (String.ofList value, rest)
  | s =>
    if startsName s then .ok (String.ofList (takeName s).1, (takeName s).2)
    else failAt s .attributeValue

/-- The bracket that ends the condition. -/
def takeAttributeEnd : List Char → Except Fault (Unit × List Char)
  | ']' :: cs => .ok ((), cs)
  | s => failAt s.tail .attributeEnd

/-- A condition on an attribute, from behind its opening bracket. -/
def takeAttribute (s : List Char) : Except Fault (AttributeTest × List Char) := do
  let (name, s) ← takeAttributeName (skipSpace s)
  let (operator?, s) ← takeOperator (skipSpace s)
  match operator? with
  | none => pure ({ name }, s)
  | some operator =>
    let (value, s) ← takeValue (skipSpace s)
    let (_, s) ← takeAttributeEnd (skipSpace s)
    pure ({ name, agreement? := some (operator, value) }, s)

/-! ## Pseudo-classes -/

/-- The pseudo-class of this name without an argument. -/
def plainPseudo (name : String) : Except Fault PseudoClass :=
  match PseudoClass.ofName? name with
  | some condition => .ok condition
  | none => .error (.unsupported name)

/-- The pseudo-class of this name with an argument, in front of `rest`. -/
def argumentPseudo (name : String) (argument rest : List Char) : Except Fault PseudoClass :=
  if name == "nth-child" then
    match AnPlusB.ofChars? argument with
    | some positions => .ok (.nthChild positions)
    | none => failAt rest .anPlusB
  else .error (.unsupported name)

/-- A pseudo-class, from behind its colon. -/
def takePseudo (s : List Char) : Except Fault (PseudoClass × List Char) :=
  if s.head? == some ':' then .error (.unsupported ":")
  else if startsName s then
    let name := lower (String.ofList (takeName s).1)
    match (takeName s).2 with
    | '(' :: cs =>
      -- The argument is all up to the first `)`, whatever stands in it.
      match cs.dropWhile (· != ')') with
      | [] => failAt [] .argumentEnd
      | _ :: rest => do
        let condition ← argumentPseudo name (cs.takeWhile (· != ')')) rest
        pure (condition, rest)
    | rest => do
      let condition ← plainPseudo name
      pure (condition, rest)
  else failAt s .pseudoName

/-! ## Compounds -/

/-- A simple selector other than a type or universal one, if its mark stands in front. -/
def takeSimple : List Char → Except Fault (Option (SimpleSelector × List Char))
  | '#' :: cs =>
    if (takeName cs).1 == [] then failAt (takeName cs).2 .idName
    else .ok (some (.idName (String.ofList (takeName cs).1), (takeName cs).2))
  | '.' :: cs =>
    if startsName cs then
      .ok (some (.className (String.ofList (takeName cs).1), (takeName cs).2))
    else failAt cs .className
  | '[' :: cs => do
    let (test, rest) ← takeAttribute cs
    pure (some (.attribute test, rest))
  | ':' :: cs => do
    let (condition, rest) ← takePseudo cs
    pure (some (.pseudo condition, rest))
  | _ => .ok none

/-- The type or universal selector that a compound may begin with. -/
def takeType (s : List Char) : Compound × List Char :=
  match s with
  | '*' :: cs => ([.universal], cs)
  | s =>
    if startsName s then ([.typeName (String.ofList (takeName s).1)], (takeName s).2)
    else ([], s)

/-! ## Readers do not lengthen the rest -/

theorem bind_eq_ok {ε α β : Type} {x : Except ε α} {f : α → Except ε β} {b : β}
    (h : (x >>= f) = .ok b) : ∃ a, x = .ok a ∧ f a = .ok b := by
  cases x with
  | error e => cases h
  | ok a => exact ⟨a, rfl, h⟩

theorem map_eq_ok {ε α β : Type} {x : Except ε α} {f : α → β} {b : β}
    (h : x.map f = .ok b) : ∃ a, x = .ok a ∧ f a = b := by
  cases x with
  | error cause => cases h
  | ok a => exact ⟨a, rfl, Except.ok.inj h⟩

theorem takeQuoted_le {quote : Char} {s rest : List Char} {value : List Char}
    (h : takeQuoted quote s = .ok (value, rest)) : rest.length ≤ s.length := by
  fun_induction takeQuoted quote s generalizing value with
  | case1 => cases h
  | case2 c cs hc => cases h; simp
  | case3 => cases h
  | case4 => cases h
  | case5 c cs _ _ _ _ _ ih =>
    obtain ⟨⟨v, r⟩, hrec, hpure⟩ := bind_eq_ok h
    cases hpure
    have := ih hrec
    have := length_takeEscape_le cs
    simp only [List.length_cons]; omega
  | case6 c cs _ _ _ _ _ ih =>
    have := ih h
    simp only [List.length_tail, List.length_cons] at *; omega
  | case7 c cs _ _ _ ih =>
    obtain ⟨⟨v, r⟩, hrec, hpure⟩ := bind_eq_ok h
    cases hpure
    have := ih hrec
    simp only [List.length_cons]; omega

theorem takeAttributeName_le {s rest : List Char} {name : String}
    (h : takeAttributeName s = .ok (name, rest)) : rest.length ≤ s.length := by
  unfold takeAttributeName at h
  split at h
  · cases h; exact length_takeName_le s
  · cases h

theorem takeOperator_le {s rest : List Char} {operator? : Option AttributeOperator}
    (h : takeOperator s = .ok (operator?, rest)) : rest.length ≤ s.length := by
  cases s with
  | nil => cases h
  | cons c cs =>
    simp only [takeOperator] at h
    split at h
    · cases h; simp
    · split at h
      · cases h; simp
      · split at h
        · cases h
        · split at h
          · cases h; simp only [List.length_tail, List.length_cons]; omega
          · cases h

theorem takeValue_le {s rest : List Char} {value : String}
    (h : takeValue s = .ok (value, rest)) : rest.length ≤ s.length := by
  unfold takeValue at h
  split at h
  · obtain ⟨⟨v, r⟩, hrec, hpure⟩ := bind_eq_ok h
    cases hpure
    have := takeQuoted_le hrec
    simp only [List.length_cons]; omega
  · obtain ⟨⟨v, r⟩, hrec, hpure⟩ := bind_eq_ok h
    cases hpure
    have := takeQuoted_le hrec
    simp only [List.length_cons]; omega
  · split at h
    · cases h; exact length_takeName_le _
    · cases h

theorem takeAttributeEnd_le {s rest : List Char} {u : Unit}
    (h : takeAttributeEnd s = .ok (u, rest)) : rest.length ≤ s.length := by
  unfold takeAttributeEnd at h
  split at h
  · cases h; simp
  · cases h

theorem takeAttribute_le {s rest : List Char} {test : AttributeTest}
    (h : takeAttribute s = .ok (test, rest)) : rest.length ≤ s.length := by
  obtain ⟨⟨name, r₁⟩, h₁, h⟩ := bind_eq_ok h
  obtain ⟨⟨operator?, r₂⟩, h₂, h⟩ := bind_eq_ok h
  have l₁ := takeAttributeName_le h₁
  have l₂ := takeOperator_le h₂
  have s₀ := length_skipSpace_le s
  have s₁ := length_skipSpace_le r₁
  cases operator? with
  | none => cases h; omega
  | some operator =>
    obtain ⟨⟨value, r₃⟩, h₃, h⟩ := bind_eq_ok h
    obtain ⟨⟨u, r₄⟩, h₄, h⟩ := bind_eq_ok h
    have l₃ := takeValue_le h₃
    have l₄ := takeAttributeEnd_le h₄
    have s₂ := length_skipSpace_le r₂
    have s₃ := length_skipSpace_le r₃
    cases h
    omega

theorem takePseudo_le {s rest : List Char} {condition : PseudoClass}
    (h : takePseudo s = .ok (condition, rest)) : rest.length ≤ s.length := by
  have hname := length_takeName_le s
  unfold takePseudo at h
  split at h
  · cases h
  · split at h
    · dsimp only at h
      split at h
      · rename_i cs hcs
        split at h
        · cases h
        · rename_i d rest' hdrop
          obtain ⟨a, -, hpure⟩ := bind_eq_ok h
          cases hpure
          have hle := (List.dropWhile_sublist (p := (· != ')')) (l := cs)).length_le
          rw [hdrop] at hle
          rw [hcs] at hname
          simp only [List.length_cons] at *
          omega
      · obtain ⟨a, -, hpure⟩ := bind_eq_ok h
        cases hpure
        exact hname
    · cases h

/-- A simple selector takes its mark at least. -/
theorem takeSimple_lt {s rest : List Char} {simple : SimpleSelector}
    (h : takeSimple s = .ok (some (simple, rest))) : rest.length < s.length := by
  unfold takeSimple at h
  split at h
  · split at h
    · cases h
    · cases h; exact Nat.lt_succ_of_le (length_takeName_le _)
  · split at h
    · cases h; exact Nat.lt_succ_of_le (length_takeName_le _)
    · cases h
  · obtain ⟨⟨test, r⟩, hrec, hpure⟩ := bind_eq_ok h
    cases hpure
    exact Nat.lt_succ_of_le (takeAttribute_le hrec)
  · obtain ⟨⟨condition, r⟩, hrec, hpure⟩ := bind_eq_ok h
    cases hpure
    exact Nat.lt_succ_of_le (takePseudo_le hrec)
  · cases h

theorem takeType_le (s : List Char) : (takeType s).2.length ≤ s.length := by
  unfold takeType
  split
  · simp
  · split
    · exact length_takeName_le _
    · exact Nat.le_refl _

theorem takeType_lt {s : List Char} (h : (takeType s).1 ≠ []) :
    (takeType s).2.length < s.length := by
  unfold takeType at h ⊢
  split
  · simp
  · rename_i hstar
    split
    · rename_i hname; exact length_takeName_lt hname
    · simp_all

/-! ## Loops -/

/-- The simple selectors in front, as many as there are. -/
def takeSimples (s : List Char) : Except Fault (Compound × List Char) :=
  match _h : takeSimple s with
  | .error fault => .error fault
  | .ok none => .ok ([], s)
  | .ok (some (simple, rest)) => do
    let (others, rest) ← takeSimples rest
    pure (simple :: others, rest)
termination_by s.length
decreasing_by exact takeSimple_lt ‹_›

/-- A compound: a type or universal selector, or none, and simple selectors; one at least. -/
def takeCompound (s : List Char) : Except Fault (Compound × List Char) := do
  let (others, rest) ← takeSimples (takeType s).2
  let compound := (takeType s).1 ++ others
  if compound == [] then failAt rest .simpleSelector
  else pure (compound, rest)

/-- The combinator in front of a further compound, or nothing at the end of the text. Blanks
    alone are the descendant combinator. -/
def takeCombinator (s : List Char) : Except Fault (Option (Combinator × List Char)) :=
  match skipSpace s with
  | [] => .ok none
  | '>' :: cs => .ok (some (.child, skipSpace cs))
  | '+' :: cs => .ok (some (.nextSibling, skipSpace cs))
  | '~' :: cs => .ok (some (.subsequentSibling, skipSpace cs))
  | rest =>
    if s.head?.any isSpace then .ok (some (.descendant, rest))
    else failAt rest .noCharacter

theorem takeSimples_le {s rest : List Char} {compound : Compound}
    (h : takeSimples s = .ok (compound, rest)) :
    rest.length ≤ s.length ∧ (compound ≠ [] → rest.length < s.length) := by
  fun_induction takeSimples s generalizing compound rest with
  | case1 => cases h
  | case2 => cases h; simp
  | case3 s simple r hsimple ih =>
    obtain ⟨⟨others, r'⟩, hrec, hpure⟩ := bind_eq_ok h
    cases hpure
    have := takeSimple_lt hsimple
    have := (ih hrec).1
    exact ⟨by omega, fun _ => by omega⟩

/-- A compound takes a character at least. -/
theorem takeCompound_lt {s rest : List Char} {compound : Compound}
    (h : takeCompound s = .ok (compound, rest)) : rest.length < s.length := by
  obtain ⟨⟨others, r⟩, hrec, h⟩ := bind_eq_ok h
  have hle := takeType_le s
  obtain ⟨hothers, hlt⟩ := takeSimples_le hrec
  dsimp only at h
  split at h
  · cases h
  · rename_i hne
    cases h
    by_cases htype : (takeType s).1 = []
    · have : others ≠ [] := by rintro rfl; simp [htype] at hne
      have := hlt this
      omega
    · have := takeType_lt htype
      omega

theorem takeCombinator_le {s rest : List Char} {combinator : Combinator}
    (h : takeCombinator s = .ok (some (combinator, rest))) : rest.length ≤ s.length := by
  have hs := length_skipSpace_le s
  unfold takeCombinator at h
  split at h
  · cases h
  · rename_i cs hcs
    cases h
    have := length_skipSpace_le cs
    rw [hcs] at hs; simp only [List.length_cons] at hs; omega
  · rename_i cs hcs
    cases h
    have := length_skipSpace_le cs
    rw [hcs] at hs; simp only [List.length_cons] at hs; omega
  · rename_i cs hcs
    cases h
    have := length_skipSpace_le cs
    rw [hcs] at hs; simp only [List.length_cons] at hs; omega
  · split at h
    · cases h; exact hs
    · cases h

/-- What follows the compounds read so far: combinators, each with a compound, to the end. -/
def takeChain (sofar : Selector) (s : List Char) : Except Fault Selector :=
  match _h : takeCombinator s with
  | .error fault => .error fault
  | .ok none => .ok sofar
  | .ok (some (combinator, rest)) =>
    match _h' : takeCompound rest with
    | .error fault => .error fault
    | .ok (compound, rest) => takeChain (sofar.extend combinator compound) rest
termination_by s.length
decreasing_by exact Nat.lt_of_lt_of_le (takeCompound_lt ‹_›) (takeCombinator_le ‹_›)

/-! ## The whole text -/

/-- A selector, from its first character on. -/
def takeSelector (s : List Char) : Except Fault Selector := do
  let (subject, rest) ← takeCompound s
  takeChain { subject } rest

/-- A fault as an error about a text of `length` characters. -/
def Fault.toError (length : Nat) : Fault → SelectorError
  | .expected left expectation => .invalid (length - left) expectation
  | .unsupported name => .unsupported name

/-- The selector that a list of characters spells. -/
def ofList (s : List Char) : Except SelectorError Selector :=
  if skipSpace s == [] then .error .empty
  else (takeSelector (skipSpace s)).mapError (Fault.toError s.length)

/-- The selector that a text spells. -/
def ofString (s : String) : Except SelectorError Selector :=
  ofList s.toList

end Selector

end UniqueSelector
