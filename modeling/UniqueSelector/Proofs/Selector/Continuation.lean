/-
  UniqueSelector.Proofs.Selector.Continuation

  What becomes of a reading when a blank and more stand behind the text. Two
  readings run side by side, one of the text and one of the longer text, and
  every reader that succeeds on the first reads the same on the second and
  leaves the two in the same relation: the longer rest is the shorter one with
  the blank and the rest of it behind, or an escape at the very end of the text
  has taken the blank.

    * `endsOpen` — the text ends in a backslash that escapes nothing; that one
      would escape the blank.
    * `LeftWith` — the relation between the two rests.
    * `Continues` — a reader keeps it; `Continues.bind` — so do two in a row.
    * `LeftWith.takeName`, `continues_takeAttribute`, `continues_takePseudo`,
      `continues_takeCompound` — the readers.

  Each reader is taken through by its own recursion with the longer rest
  generalised, so that the two cases of the relation are told apart only where
  the text has come to its end.
-/

import UniqueSelector.Proofs.Selector.Conditions
import Mathlib.Data.List.DropRight
import Mathlib.Algebra.Ring.Parity

namespace UniqueSelector

open Text Identifier Selector

/-! ## Backslashes at the end -/

/-- Read in pairs with what they escape, the last backslash of the text has nothing behind it. -/
def endsOpen : List Char → Bool
  | [] => false
  | ['\\'] => true
  | '\\' :: _ :: cs => endsOpen cs
  | _ :: cs => endsOpen cs

@[simp] theorem endsOpen_nil : endsOpen [] = false := rfl

@[simp] theorem endsOpen_backslash_cons (c : Char) (cs : List Char) :
    endsOpen ('\\' :: c :: cs) = endsOpen cs := rfl

theorem endsOpen_cons {c : Char} (hc : c ≠ '\\') (cs : List Char) :
    endsOpen (c :: cs) = endsOpen cs := by
  rw [endsOpen]
  · rintro rfl
    exact absurd rfl hc
  · rintro d ds rfl
    exact absurd rfl hc

theorem endsOpen_append {a : List Char} (ha : ∀ c ∈ a, c ≠ '\\') (s : List Char) :
    endsOpen (a ++ s) = endsOpen s := by
  induction a with
  | nil => rfl
  | cons c cs ih =>
      rw [List.cons_append, endsOpen_cons (ha c List.mem_cons_self),
        ih fun d hd => ha d (List.mem_cons_of_mem _ hd)]

/-- Behind any other character the pairs begin anew, escaped or not. -/
theorem endsOpen_append_cons {c : Char} (hc : c ≠ '\\') (a s : List Char) :
    endsOpen (a ++ c :: s) = endsOpen s := by
  -- Pair by pair along `a`: the character is the second of a pair, or stands alone behind them.
  fun_induction endsOpen a with
  | case1 => exact endsOpen_cons hc s
  | case2 => rfl
  | case3 d ds ih => exact ih
  | case4 d ds h₁ h₂ ih =>
      have hd : d ≠ '\\' := by
        rintro rfl
        cases ds with
        | nil => exact h₁ rfl rfl
        | cons e es => exact h₂ e es rfl rfl
      rw [List.cons_append, endsOpen_cons hd, ih]

theorem endsOpen_replicate (n : Nat) :
    endsOpen (List.replicate n '\\') = true ↔ Odd n := by
  induction n using Nat.twoStepInduction with
  | zero => simp
  | one => simp [endsOpen]
  | more n ih _ =>
      rw [List.replicate_succ, List.replicate_succ, endsOpen_backslash_cons, ih, Nat.odd_add]
      simp

/-- How many backslashes stand at the end. -/
def backslashesAtEnd (s : List Char) : Nat :=
  (s.rtakeWhile (· == '\\')).length

/-- A text ends open when it ends in an odd number of backslashes. -/
theorem endsOpen_iff (s : List Char) : endsOpen s = true ↔ Odd (backslashesAtEnd s) := by
  have hcut : s.rdropWhile (· == '\\') ++ s.rtakeWhile (· == '\\') = s := by
    rw [List.rdropWhile, List.rtakeWhile, ← List.reverse_append, List.takeWhile_append_dropWhile,
      List.reverse_reverse]
  have hrun : s.rtakeWhile (· == '\\') = List.replicate (backslashesAtEnd s) '\\' := by
    refine List.eq_replicate_of_mem fun c hc => ?_
    simpa using List.mem_rtakeWhile_imp hc
  rw [← endsOpen_replicate, ← hrun]
  nth_rewrite 1 [← hcut]
  rcases List.eq_nil_or_concat' (s.rdropWhile (· == '\\')) with hfront | ⟨front, c, hfront⟩
  · rw [hfront, List.nil_append]
  · -- The run begins behind another character, so the pairs in it are those of the text.
    have hc : c ≠ '\\' := by
      have hlast := List.rdropWhile_last_not (· == '\\') s (by simp [hfront])
      simpa [hfront] using hlast
    rw [hfront, List.append_assoc, List.singleton_append, endsOpen_append_cons hc]

theorem ne_backslash_of_isSpace {c : Char} (h : isSpace c = true) : c ≠ '\\' := by
  rintro rfl
  exact absurd h (by decide)

theorem endsOpen_skipSpace (s : List Char) : endsOpen (skipSpace s) = endsOpen s := by
  have hblanks : ∀ c ∈ s.takeWhile isSpace, c ≠ '\\' :=
    fun c hc => ne_backslash_of_isSpace (List.mem_takeWhile_imp hc)
  nth_rewrite 2 [← List.takeWhile_append_dropWhile (p := isSpace) (l := s)]
  exact (endsOpen_append hblanks _).symm

/-! ## What is left -/

/-- What is left of the longer text where `rest` is left of the text. -/
inductive LeftWith (more : List Char) : List Char → List Char → Prop
  /-- The blank and the rest behind it are still there. -/
  | kept {rest : List Char} (h : endsOpen rest = false) : LeftWith more rest (rest ++ ' ' :: more)
  /-- An escape at the end of the text has taken the blank. -/
  | taken : LeftWith more [] more

section Readers

variable {more : List Char} {s left : List Char}

theorem LeftWith.of_cons {c : Char} {cs : List Char} (h : LeftWith more (c :: cs) left) :
    left = c :: (cs ++ ' ' :: more) ∧ endsOpen (c :: cs) = false := by
  cases h with
  | kept h => exact ⟨rfl, h⟩

/-- What stands in front without a backslash stands in front of the longer text as well. -/
theorem LeftWith.append {a rest : List Char} (ha : ∀ c ∈ a, c ≠ '\\') (hne : a ++ rest ≠ [])
    (h : LeftWith more (a ++ rest) left) :
    left = a ++ (rest ++ ' ' :: more) ∧ LeftWith more rest (rest ++ ' ' :: more) := by
  generalize htext : a ++ rest = text at h hne
  cases h with
  | kept hopen =>
      rw [← htext, endsOpen_append ha] at hopen
      exact ⟨by rw [← htext, List.append_assoc], LeftWith.kept hopen⟩
  | taken => exact absurd rfl hne

theorem LeftWith.tail {c : Char} {cs : List Char} (hc : c ≠ '\\')
    (h : LeftWith more (c :: cs) left) :
    left = c :: (cs ++ ' ' :: more) ∧ LeftWith more cs (cs ++ ' ' :: more) :=
  LeftWith.append (a := [c]) (by simpa using hc) (List.cons_ne_nil _ _) h

theorem LeftWith.endsCompound (hmore : EndsCompound more) (h : LeftWith more [] left) :
    EndsCompound left := by
  cases h with
  | kept h => exact endsCompound_cons (Or.inl (by decide)) more
  | taken => exact hmore

/-- The reader goes the same way on both texts wherever it succeeds on the shorter one. -/
def Continues {α : Type} (more : List Char)
    (read : List Char → Except Fault (α × List Char)) : Prop :=
  ∀ ⦃s left rest : List Char⦄ ⦃v : α⦄, LeftWith more s left → read s = .ok (v, rest) →
    ∃ left', LeftWith more rest left' ∧ read left = .ok (v, left')

theorem Continues.pure {α : Type} (v : α) : Continues more fun s => .ok (v, s) := by
  intro s left rest v' hleft h
  cases h
  exact ⟨left, hleft, rfl⟩

theorem Continues.bind {α β : Type} {read : List Char → Except Fault (α × List Char)}
    {next : α → List Char → Except Fault (β × List Char)} (h : Continues more read)
    (hnext : ∀ v, Continues more (next v)) :
    Continues more fun s => read s >>= fun p => next p.1 p.2 := by
  intro s left rest w hleft hread
  obtain ⟨⟨v, mid⟩, hfirst, hsecond⟩ := bind_eq_ok hread
  obtain ⟨left₁, hleft₁, hfirst'⟩ := h hleft hfirst
  obtain ⟨left₂, hleft₂, hsecond'⟩ := hnext v hleft₁ hsecond
  refine ⟨left₂, hleft₂, ?_⟩
  show (read left >>= _) = _
  rw [hfirst']
  exact hsecond'

theorem skipSpace_append_of_ne_nil (h : skipSpace s ≠ []) (t : List Char) :
    skipSpace (s ++ t) = skipSpace s ++ t := by
  rw [skipSpace] at h ⊢
  rw [List.dropWhile_append, if_neg (by rwa [List.isEmpty_iff]), skipSpace]

/-- Blanks may come first for a reader that needs something to read. -/
theorem Continues.afterBlanks {α : Type} {read : List Char → Except Fault (α × List Char)}
    (h : Continues more read) (hnil : ∀ p, read [] ≠ .ok p) :
    Continues more fun s => read (skipSpace s) := by
  intro s left rest v hleft hread
  replace hread : read (skipSpace s) = .ok (v, rest) := hread
  have hne : skipSpace s ≠ [] := by
    intro hs
    rw [hs] at hread
    exact hnil _ hread
  have hskip : LeftWith more (skipSpace s) (skipSpace left) := by
    cases hleft with
    | kept hopen =>
        rw [skipSpace_append_of_ne_nil hne]
        exact LeftWith.kept (by rw [endsOpen_skipSpace, hopen])
    | taken => exact absurd rfl hne
  exact h hskip hread

/-! ## Names -/

theorem opensEscape_append_space (s : List Char) :
    opensEscape (s ++ ' ' :: more) = opensEscape s := by
  cases s with
  | nil => rfl
  | cons c cs =>
      unfold opensEscape
      split <;> simp_all

theorem startsName_append_space (s : List Char) :
    startsName (s ++ ' ' :: more) = startsName s := by
  rcases s with _ | ⟨c, cs⟩
  · rfl
  by_cases hhyphen : c = '-'
  · subst hhyphen
    cases cs with
    | nil => rfl
    | cons d ds => simp [startsName, opensEscape_append_space]
  · by_cases hback : c = '\\'
    · subst hback
      exact opensEscape_append_space cs
    · rw [List.cons_append, startsName_cons hhyphen hback, startsName_cons hhyphen hback]

theorem LeftWith.startsName (hmore : EndsCompound more) (h : LeftWith more s left) :
    startsName left = startsName s := by
  cases h with
  | kept h => exact startsName_append_space s
  | taken => exact startsName_of_endsCompound hmore

theorem ne_backslash_of_isHexDigit {c : Char} (h : isHexDigit c = true) : c ≠ '\\' := by
  rintro rfl
  exact absurd h (by decide)

/-- An escape reads the same, and takes the blank only where its digits end the text. -/
theorem takeEscape_append_space (more : List Char) {cs : List Char}
    (h : endsOpen ('\\' :: cs) = false) :
    (takeEscape (cs ++ ' ' :: more)).1 = (takeEscape cs).1 ∧
      LeftWith more (takeEscape cs).2 (takeEscape (cs ++ ' ' :: more)).2 := by
  cases cs with
  | nil => cases h
  | cons c cs =>
      rw [endsOpen_backslash_cons] at h
      by_cases hc : isHexDigit c = true
      · obtain ⟨digits, rest, rfl, hdigits, hlen, hstop⟩ := exists_hexRun cs
        -- The blank is no digit, so the digits end at the same place.
        have hstop' : digits.length = 5 ∨
            ∀ d ∈ (rest ++ ' ' :: more).head?, isHexDigit d = false := by
          refine hstop.imp_right fun hrest => ?_
          cases rest with
          | nil => simp; decide
          | cons d ds => exact hrest
        rw [endsOpen_append fun d hd => ne_backslash_of_isHexDigit (hdigits d hd)] at h
        rw [List.cons_append, List.append_assoc, ← List.cons_append, ← List.cons_append,
          takeEscape_hex hc hdigits hlen hstop, takeEscape_hex hc hdigits hlen hstop']
        refine ⟨rfl, ?_⟩
        cases rest with
        -- With nothing behind the digits, the blank is the one that belongs to the escape.
        | nil => exact LeftWith.taken
        | cons d ds =>
            rw [List.cons_append, skipOneSpace, skipOneSpace]
            split
            · rename_i hspace
              rw [endsOpen_cons (ne_backslash_of_isSpace hspace)] at h
              exact LeftWith.kept h
            · exact LeftWith.kept h
      · rw [List.cons_append, takeEscape, takeEscape, if_neg hc, if_neg hc]
        exact ⟨rfl, LeftWith.kept h⟩

theorem takeName_stop {c : Char} {cs : List Char} (hc : ¬ isNameChar c = true)
    (hesc : ¬ (c == '\\' && opensEscape cs) = true) :
    takeName (c :: cs) = ([], c :: cs) := by
  rw [takeName, if_neg hc, if_neg hesc]

/-- A name reads the same on both texts. -/
theorem LeftWith.takeName (hmore : EndsCompound more) (h : LeftWith more s left) :
    (takeName left).1 = (takeName s).1 ∧ LeftWith more (takeName s).2 (takeName left).2 := by
  fun_induction Identifier.takeName s generalizing left with
  | case1 =>
      have hends := endsSimple_of_endsCompound (h.endsCompound hmore)
      rw [takeName_of_endsName (endsName_of_endsSimple hends)]
      exact ⟨rfl, h⟩
  | case2 c cs hc name rest hrec ih =>
      have hback : c ≠ '\\' := by rintro rfl; exact absurd hc (by decide)
      obtain ⟨rfl, htail⟩ := h.tail hback
      obtain ⟨hname, hrest⟩ := ih htail
      rw [takeName_cons_of_isNameChar hc]
      rw [hrec] at hname hrest
      exact ⟨congrArg (c :: ·) hname, hrest⟩
  | case3 c cs hc hesc name rest hrec ih =>
      -- The escape may take the blank, and then the name goes on in front of `more`.
      obtain ⟨rfl, hopen⟩ := h.of_cons
      obtain ⟨hback, hescape⟩ := Bool.and_eq_true_iff.mp hesc
      obtain rfl := beq_iff_eq.mp hback
      obtain ⟨hchar, hmid⟩ := takeEscape_append_space more hopen
      obtain ⟨hname, hrest⟩ := ih hmid
      rw [takeName_backslash (by rw [opensEscape_append_space, hescape]), hchar]
      rw [hrec] at hname hrest
      exact ⟨congrArg ((takeEscape cs).1 :: ·) hname, hrest⟩
  | case4 c cs hc hesc =>
      obtain ⟨rfl, hopen⟩ := h.of_cons
      rw [takeName_stop hc (by rwa [opensEscape_append_space])]
      exact ⟨rfl, LeftWith.kept hopen⟩

/-! ## Strings -/

theorem continues_takeQuoted {quote : Char} (hquote : IsQuote quote) :
    Continues more (takeQuoted quote) := by
  have hback : quote ≠ '\\' := by rcases hquote with rfl | rfl <;> decide
  intro s left rest value h hread
  -- A string that ends well has its quote in the text, so no escape in it takes the blank.
  fun_induction takeQuoted quote s generalizing left value with
  | case1 => cases hread
  | case2 c cs hc =>
      cases hread
      obtain rfl := beq_iff_eq.mp hc
      obtain ⟨rfl, htail⟩ := h.tail hback
      exact ⟨_, htail, takeQuoted_end c _⟩
  | case3 => cases hread
  | case4 => cases hread
  | case5 c cs hq hline hesc hne hopens ih =>
      obtain rfl := beq_iff_eq.mp hesc
      obtain ⟨rfl, hopen⟩ := h.of_cons
      obtain ⟨⟨v, r⟩, hrec, hpure⟩ := bind_eq_ok hread
      cases hpure
      obtain ⟨hchar, hmid⟩ := takeEscape_append_space more hopen
      obtain ⟨left', hleft', hread'⟩ := ih hmid hrec
      refine ⟨left', hleft', ?_⟩
      rw [takeQuoted, if_neg hq, if_neg hline, if_pos hesc, if_neg (by simp),
        if_pos (by rwa [opensEscape_append_space]), hread', hchar]
      rfl
  | case6 c cs hq hline hesc hne hopens ih =>
      -- The backslash stands in front of a line feed, and both go.
      obtain rfl := beq_iff_eq.mp hesc
      obtain ⟨rfl, hopen⟩ := h.of_cons
      cases cs with
      | nil => exact absurd rfl hne
      | cons d ds =>
          rw [endsOpen_backslash_cons] at hopen
          obtain ⟨left', hleft', hread'⟩ := ih (LeftWith.kept hopen) hread
          refine ⟨left', hleft', ?_⟩
          rw [takeQuoted, if_neg hq, if_neg hline, if_pos hesc, if_neg (by simp),
            if_neg (by rwa [opensEscape_append_space])]
          exact hread'
  | case7 c cs hq hline hesc ih =>
      obtain ⟨rfl, htail⟩ := h.tail (by simpa using hesc)
      obtain ⟨⟨v, r⟩, hrec, hpure⟩ := bind_eq_ok hread
      cases hpure
      obtain ⟨left', hleft', hread'⟩ := ih htail hrec
      exact ⟨left', hleft', takeQuoted_plain (by simpa using hq) (by simpa using hline)
        (by simpa using hesc) hread'⟩

/-! ## Attribute conditions -/

theorem continues_takeAttributeName (hmore : EndsCompound more) :
    Continues more takeAttributeName := by
  intro s left rest name h hread
  unfold takeAttributeName at hread ⊢
  split at hread
  · rename_i hstart
    cases hread
    obtain ⟨hname, hrest⟩ := h.takeName hmore
    rw [if_pos (by rwa [h.startsName hmore]), hname]
    exact ⟨_, hrest, rfl⟩
  · cases hread

theorem continues_takeOperator : Continues more takeOperator := by
  intro s left rest operator? h hread
  obtain rfl := takeOperator_eq_ok_iff.mp hread
  have hplain : ∀ c ∈ operatorText operator?, c ≠ '\\' := by
    rcases operator? with _ | operator
    · exact List.forall_mem_singleton.mpr (by decide)
    · cases operator <;> simp [operatorText, AttributeOperator.text]
  have hne : operatorText operator? ++ rest ≠ [] := by
    rcases operator? with _ | operator
    · exact List.cons_ne_nil _ _
    · cases operator <;> exact List.cons_ne_nil _ _
  obtain ⟨rfl, hrest⟩ := h.append hplain hne
  exact ⟨_, hrest, takeOperator_eq_ok_iff.mpr rfl⟩

theorem continues_takeValue (hmore : EndsCompound more) : Continues more takeValue := by
  intro s left rest value h hread
  cases valueRead_of_takeValue hread with
  | quoted hquote hquoted =>
      obtain ⟨rfl, htail⟩ := h.tail (by rcases hquote with rfl | rfl <;> decide)
      obtain ⟨left', hleft', hquoted'⟩ := continues_takeQuoted hquote htail hquoted
      exact ⟨left', hleft', takeValue_quoted hquote hquoted'⟩
  | bare hstart =>
      obtain ⟨hname, hrest⟩ := h.takeName hmore
      rw [takeValue_bare (by rwa [h.startsName hmore]), hname]
      exact ⟨_, hrest, rfl⟩

theorem continues_takeAttributeEnd : Continues more takeAttributeEnd := by
  intro s left rest u h hread
  unfold takeAttributeEnd at hread
  split at hread
  · cases hread
    obtain ⟨rfl, htail⟩ := h.tail (by decide)
    exact ⟨_, htail, rfl⟩
  · cases hread

/-- What is read behind the operator of a condition on an attribute. -/
def takeAgreement (name : String) (operator? : Option AttributeOperator) (s : List Char) :
    Except Fault (AttributeTest × List Char) :=
  match operator? with
  | none => .ok ({ name }, s)
  | some operator =>
    takeValue (skipSpace s) >>= fun value => takeAttributeEnd (skipSpace value.2) >>= fun ended =>
      .ok ({ name, agreement? := some (operator, value.1) }, ended.2)

theorem takeAttribute_eq : takeAttribute = fun s =>
    takeAttributeName (skipSpace s) >>= fun name =>
      takeOperator (skipSpace name.2) >>= fun operator =>
        takeAgreement name.1 operator.1 operator.2 :=
  rfl

theorem continues_takeAttribute (hmore : EndsCompound more) : Continues more takeAttribute := by
  have hname := (continues_takeAttributeName hmore).afterBlanks (by rintro p ⟨⟩)
  have hoperator : Continues more fun s => takeOperator (skipSpace s) :=
    continues_takeOperator.afterBlanks (by rintro p ⟨⟩)
  have hvalue := (continues_takeValue hmore).afterBlanks (by rintro p ⟨⟩)
  have hend : Continues more fun s => takeAttributeEnd (skipSpace s) :=
    continues_takeAttributeEnd.afterBlanks (by rintro p ⟨⟩)
  rw [takeAttribute_eq]
  refine hname.bind fun name => hoperator.bind fun operator? => ?_
  cases operator? with
  | none => exact Continues.pure _
  | some operator =>
      exact hvalue.bind fun value => hend.bind fun _ =>
        Continues.pure (AttributeTest.mk name (some (operator, value)))

/-! ## Pseudo-classes -/

theorem LeftWith.head?_ne (hmore : EndsCompound more) (h : LeftWith more s left)
    (hs : s.head? ≠ some '(') : left.head? ≠ some '(' := by
  cases s with
  | nil =>
      intro hhead
      exact (endsSimple_of_endsCompound (h.endsCompound hmore) '(' hhead).2.2 rfl
  | cons c cs =>
      obtain ⟨rfl, -⟩ := h.of_cons
      exact hs

theorem continues_takePseudo (hmore : EndsCompound more) : Continues more takePseudo := by
  intro s left rest condition h hread
  have hstart : startsName left = true := by
    rw [h.startsName hmore]
    exact startsName_of_takePseudo hread
  obtain ⟨hname, hleft⟩ := h.takeName hmore
  cases pseudoRead_of_takePseudo hread with
  | @argument argument _ hrest hclose hpseudo =>
      rw [hrest] at hleft
      obtain ⟨hleft', hopen⟩ := hleft.of_cons
      -- Whatever stands in the argument, no backslash of it reaches over the parenthesis.
      have hopen' : endsOpen rest = false := by
        rwa [endsOpen_cons (by decide), endsOpen_append_cons (by decide)] at hopen
      rw [List.append_assoc, List.cons_append] at hleft'
      refine ⟨rest ++ ' ' :: more, LeftWith.kept hopen', ?_⟩
      rw [takePseudo_of_argument hstart hleft' hclose, hname, argumentPseudo_ok hpseudo]
      rfl
  | plain hparen hpseudo =>
      refine ⟨_, hleft, ?_⟩
      rw [takePseudo_of_plain hstart (hleft.head?_ne hmore hparen), hname, hpseudo]
      rfl

/-! ## Compounds -/

theorem SimpleRead.continues (hmore : EndsCompound more) {x : SimpleSelector} {rest : List Char}
    (h : LeftWith more s left) (hread : SimpleRead s x rest) :
    ∃ left', LeftWith more rest left' ∧ SimpleRead left x left' := by
  cases hread with
  | idName hne =>
      obtain ⟨rfl, htail⟩ := h.tail (by decide)
      obtain ⟨hname, hrest⟩ := htail.takeName hmore
      rw [← hname] at hne ⊢
      exact ⟨_, hrest, SimpleRead.idName hne⟩
  | className hstart =>
      obtain ⟨rfl, htail⟩ := h.tail (by decide)
      obtain ⟨hname, hrest⟩ := htail.takeName hmore
      rw [← hname]
      exact ⟨_, hrest, SimpleRead.className (by rwa [htail.startsName hmore])⟩
  | «attribute» htest =>
      obtain ⟨rfl, htail⟩ := h.tail (by decide)
      obtain ⟨left', hleft', htest'⟩ := continues_takeAttribute hmore htail htest
      exact ⟨left', hleft', SimpleRead.attribute htest'⟩
  | pseudo hcondition =>
      obtain ⟨rfl, htail⟩ := h.tail (by decide)
      obtain ⟨left', hleft', hcondition'⟩ := continues_takePseudo hmore htail hcondition
      exact ⟨left', hleft', SimpleRead.pseudo hcondition'⟩

theorem LeftWith.takeSimple_none (hmore : EndsCompound more) (h : LeftWith more s left)
    (hread : takeSimple s = .ok none) : takeSimple left = .ok none := by
  cases s with
  | nil => exact takeSimple_of_endsCompound (h.endsCompound hmore)
  | cons c cs =>
      obtain ⟨rfl, -⟩ := h.of_cons
      rw [takeSimple_eq_none_iff] at hread ⊢
      exact hread

theorem continues_takeSimples (hmore : EndsCompound more) : Continues more takeSimples := by
  intro s left rest xs h hread
  fun_induction takeSimples s generalizing left xs with
  | case1 => cases hread
  | case2 s hnone =>
      cases hread
      exact ⟨left, h, takeSimples_none (h.takeSimple_none hmore hnone)⟩
  | case3 s x mid hsome ih =>
      obtain ⟨⟨others, r⟩, hrec, hpure⟩ := bind_eq_ok hread
      cases hpure
      have hfirst := takeSimple_eq_some_iff.mp hsome
      obtain ⟨left₁, hleft₁, hfirst'⟩ := hfirst.continues hmore h
      obtain ⟨left₂, hleft₂, hothers⟩ := ih hleft₁ hrec
      exact ⟨left₂, hleft₂, takeSimples_some (takeSimple_eq_some_iff.mpr hfirst') hothers⟩

theorem LeftWith.takeType (hmore : EndsCompound more) (h : LeftWith more s left) :
    (takeType left).1 = (takeType s).1 ∧ LeftWith more (takeType s).2 (takeType left).2 := by
  by_cases hstar : s.head? = some '*'
  · obtain ⟨cs, rfl⟩ := List.head?_eq_some_iff.mp hstar
    obtain ⟨rfl, htail⟩ := h.tail (by decide)
    exact ⟨rfl, htail⟩
  · -- No universal selector stands in front of the longer text either.
    have hstar' : left.head? ≠ some '*' := by
      cases s with
      | nil => exact head?_ne_star (h.endsCompound hmore)
      | cons c cs =>
          obtain ⟨rfl, -⟩ := h.of_cons
          exact hstar
    obtain ⟨hname, hrest⟩ := h.takeName hmore
    rw [takeType_of_head hstar, takeType_of_head hstar', h.startsName hmore, hname]
    split
    · exact ⟨rfl, hrest⟩
    · exact ⟨rfl, h⟩

theorem continues_takeCompound (hmore : EndsCompound more) : Continues more takeCompound := by
  intro s left rest c h hread
  obtain ⟨hne, others, hothers, hc⟩ := takeCompound_eq_ok_iff.mp hread
  obtain ⟨htype, hmid⟩ := h.takeType hmore
  obtain ⟨left', hleft', hothers'⟩ := continues_takeSimples hmore hmid hothers
  rw [← htype] at hc
  exact ⟨left', hleft', takeCompound_eq_ok_iff.mpr ⟨hne, others, hothers', hc⟩⟩

end Readers

end UniqueSelector
