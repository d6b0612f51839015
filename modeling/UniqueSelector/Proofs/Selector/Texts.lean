/-
  UniqueSelector.Proofs.Selector.Texts

  Texts that the selector readers take whole. A condition is read as itself
  wherever the text behind it cannot continue it (`EndsSimple`), a compound
  wherever a combinator or the end follows (`EndsCompound`), and a selector up
  to the end of the text. Nothing is said here about where such texts come from:
  spellings and synthesised fragments are both shown to be texts of this kind.

    * `SimpleRead`, `takeCompound_eq_ok_iff` — what readers take, whatever the
      text.
    * `SimpleText`, `SimplesText`, `CompoundText`, `SelectorText` — the texts.
    * `takeCompound_of_compoundText` — a compound is read whole.
    * `ofList_of_selectorText` — so is a selector, with blanks around it.
    * `ofList_faulty` — no selector is read where a compound ends in a condition
      that cannot be read.
-/

import UniqueSelector.Proofs.Identifier.RoundTrip

namespace UniqueSelector

open Text Identifier Selector

/-! ## Blanks -/

/-- Nothing but blanks. -/
def Blanks (w : List Char) : Prop :=
  ∀ c ∈ w, isSpace c = true

theorem blanks_nil : Blanks [] := by
  intro c hc
  cases hc

theorem blanks_space : Blanks [' '] := by
  intro c hc
  rw [List.mem_singleton.mp hc]
  decide

theorem skipSpace_append {w : List Char} (hw : Blanks w) (rest : List Char) :
    skipSpace (w ++ rest) = skipSpace rest :=
  List.dropWhile_append_of_pos hw

theorem skipSpace_cons {c : Char} (hc : isSpace c = false) (rest : List Char) :
    skipSpace (c :: rest) = c :: rest := by
  rw [skipSpace, List.dropWhile_cons_of_neg (by simp [hc])]

theorem skipSpace_blanks {w : List Char} (hw : Blanks w) : skipSpace w = [] := by
  have h := skipSpace_append hw []
  rw [List.append_nil] at h
  exact h

/-! ## Names -/

/-- A text that names can spell: not empty, and without NUL. -/
def IsName (n : String) : Prop :=
  n ≠ "" ∧ '\x00' ∉ n.toList

/-- The written form of a text. -/
def nameText (n : String) : List Char :=
  escapeChars n.toList

theorem nameText_of_escape {n e : String} (h : escape n = .ok e) : e.toList = nameText n := by
  have hnul : '\x00' ∉ n.toList := (escape_isOk_iff n).mp ⟨e, h⟩
  rw [escape_eq_ok hnul] at h
  cases h
  rw [String.toList_ofList, nameText]

theorem startsName_nameText {n : String} (hn : IsName n) (rest : List Char) :
    startsName (nameText n ++ rest) = true :=
  startsName_escapeChars hn.2 (by simpa using hn.1) rest

theorem takeName_nameText {n : String} (hn : IsName n) {rest : List Char} (hrest : EndsName rest) :
    takeName (nameText n ++ rest) = (n.toList, rest) :=
  takeName_escapeChars hn.2 hrest

/-- A name begins with none of the characters that mean something else to a reader. -/
theorem head_of_startsName {c : Char} {cs : List Char} (h : startsName (c :: cs) = true) :
    isNameStart c = true ∨ c = '-' ∨ c = '\\' := by
  unfold startsName at h
  split at h
  · rename_i heq
    exact Or.inr (Or.inl (List.cons.inj heq).1)
  · rename_i heq
    exact Or.inr (Or.inr (List.cons.inj heq).1)
  · rename_i heq
    rw [(List.cons.inj heq).1]
    exact Or.inl h
  · cases h

theorem ne_of_startsName {c d : Char} {cs : List Char} (h : startsName (c :: cs) = true)
    (hstart : isNameStart d = false) (hhyphen : d ≠ '-') (hback : d ≠ '\\') : c ≠ d := by
  rintro rfl
  rcases head_of_startsName h with h | h | h
  · rw [hstart] at h
    cases h
  · exact hhyphen h
  · exact hback h

theorem isSpace_cases {c : Char} (h : isSpace c = true) :
    c = ' ' ∨ c = '\t' ∨ c = '\n' ∨ c = '\r' ∨ c = '\x0c' := by
  simpa [isSpace, or_assoc] using h

theorem isSpace_of_startsName {c : Char} {cs : List Char} (h : startsName (c :: cs) = true) :
    isSpace c = false := by
  rw [Bool.eq_false_iff]
  intro hspace
  rcases isSpace_cases hspace with hc | hc | hc | hc | hc
  all_goals exact ne_of_startsName h (by decide) (by decide) (by decide) hc

theorem skipSpace_of_startsName {s : List Char} (h : startsName s = true) : skipSpace s = s := by
  cases s with
  | nil => cases h
  | cons c cs => exact skipSpace_cons (isSpace_of_startsName h) cs

/-! ## Where things end -/

/-- No condition reaches into `rest`. -/
def EndsSimple (rest : List Char) : Prop :=
  ∀ c ∈ rest.head?, isNameChar c = false ∧ c ≠ '\\' ∧ c ≠ '('

/-- No compound reaches into `rest`: it is the end, or a combinator stands in front. -/
def EndsCompound (rest : List Char) : Prop :=
  ∀ c ∈ rest.head?, isSpace c = true ∨ c = '>' ∨ c = '+' ∨ c = '~'

theorem exists_cons_of_not_endsCompound {rest : List Char} (h : ¬ EndsCompound rest) :
    ∃ c cs, rest = c :: cs ∧ isSpace c = false ∧ c ≠ '>' ∧ c ≠ '+' ∧ c ≠ '~' := by
  cases rest with
  | nil => exact absurd (fun c hc => nomatch hc) h
  | cons c cs =>
      have hc : ¬ (isSpace c = true ∨ c = '>' ∨ c = '+' ∨ c = '~') := by
        intro hc
        apply h
        intro d hd
        rwa [← Option.some.inj hd]
      exact ⟨c, cs, rfl, by simpa [not_or] using hc⟩

theorem not_endsCompound_append {s : List Char} (h : ¬ EndsCompound s) (t : List Char) :
    ¬ EndsCompound (s ++ t) := by
  intro hends
  apply h
  intro c hc
  obtain ⟨cs, rfl⟩ := List.head?_eq_some_iff.mp hc
  exact hends c rfl

theorem endsName_of_endsSimple {rest : List Char} (h : EndsSimple rest) : EndsName rest :=
  fun c hc => ⟨(h c hc).1, (h c hc).2.1⟩

theorem endsCompound_nil : EndsCompound [] := by
  intro c hc
  cases hc

theorem endsCompound_cons {c : Char} (h : isSpace c = true ∨ c = '>' ∨ c = '+' ∨ c = '~')
    (rest : List Char) : EndsCompound (c :: rest) := by
  intro d hd
  rw [← Option.some.inj hd]
  exact h

theorem endsSimple_of_endsCompound {rest : List Char} (h : EndsCompound rest) :
    EndsSimple rest := by
  intro c hc
  rcases h c hc with hspace | rfl | rfl | rfl
  · rcases isSpace_cases hspace with rfl | rfl | rfl | rfl | rfl <;> decide
  all_goals decide

theorem startsName_of_endsCompound {rest : List Char} (h : EndsCompound rest) :
    startsName rest = false := by
  cases rest with
  | nil => rfl
  | cons c cs =>
      rw [Bool.eq_false_iff]
      intro hstart
      rcases h c rfl with hspace | rfl | rfl | rfl
      · rw [isSpace_of_startsName hstart] at hspace
        cases hspace
      all_goals exact ne_of_startsName hstart (by decide) (by decide) (by decide) rfl

/-- The marks that a condition other than a type begins with. -/
def IsMark (c : Char) : Prop :=
  c = '#' ∨ c = '.' ∨ c = '[' ∨ c = ':'

theorem endsSimple_of_isMark {c : Char} (h : IsMark c) (rest : List Char) :
    EndsSimple (c :: rest) := by
  intro d hd
  rw [← Option.some.inj hd]
  rcases h with rfl | rfl | rfl | rfl <;> decide

/-- Without a mark in front there is no condition. -/
theorem takeSimple_eq_none_iff {s : List Char} :
    takeSimple s = .ok none ↔ ∀ c ∈ s.head?, ¬ IsMark c := by
  constructor
  · intro h c hc hmark
    obtain ⟨cs, rfl⟩ := List.head?_eq_some_iff.mp hc
    rcases hmark with rfl | rfl | rfl | rfl
    · rw [takeSimple] at h
      split at h <;> cases h
    · rw [takeSimple] at h
      split at h <;> cases h
    · obtain ⟨_, _, hpure⟩ := bind_eq_ok h
      cases hpure
    · obtain ⟨_, _, hpure⟩ := bind_eq_ok h
      cases hpure
  · intro hs
    unfold takeSimple
    split
    · exact absurd (Or.inl rfl) (hs _ rfl)
    · exact absurd (Or.inr (Or.inl rfl)) (hs _ rfl)
    · exact absurd (Or.inr (Or.inr (Or.inl rfl))) (hs _ rfl)
    · exact absurd (Or.inr (Or.inr (Or.inr rfl))) (hs _ rfl)
    · rfl

/-- No condition begins where a compound ends. -/
theorem takeSimple_of_endsCompound {rest : List Char} (h : EndsCompound rest) :
    takeSimple rest = .ok none := by
  rw [takeSimple_eq_none_iff]
  intro c hc hmark
  rcases hmark with rfl | rfl | rfl | rfl <;> rcases h _ hc with h | h | h | h <;>
    exact absurd h (by decide)

/-! ## What a condition is read from -/

/-- A condition is read off the front of a text, and leaves a rest: one case for each mark. -/
inductive SimpleRead : List Char → SimpleSelector → List Char → Prop
  | idName {cs : List Char} (hne : (takeName cs).1 ≠ []) :
      SimpleRead ('#' :: cs) (.idName (String.ofList (takeName cs).1)) (takeName cs).2
  | className {cs : List Char} (hstart : startsName cs = true) :
      SimpleRead ('.' :: cs) (.className (String.ofList (takeName cs).1)) (takeName cs).2
  | attribute {cs rest : List Char} {test : AttributeTest}
      (h : takeAttribute cs = .ok (test, rest)) : SimpleRead ('[' :: cs) (.attribute test) rest
  | pseudo {cs rest : List Char} {condition : PseudoClass}
      (h : takePseudo cs = .ok (condition, rest)) : SimpleRead (':' :: cs) (.pseudo condition) rest

theorem takeSimple_eq_some_iff {s rest : List Char} {x : SimpleSelector} :
    takeSimple s = .ok (some (x, rest)) ↔ SimpleRead s x rest := by
  constructor
  · intro h
    unfold takeSimple at h
    split at h
    · split at h
      · cases h
      · rename_i hne
        cases h
        exact SimpleRead.idName (by simpa using hne)
    · split at h
      · rename_i hstart
        cases h
        exact SimpleRead.className hstart
      · cases h
    · obtain ⟨⟨test, r⟩, htest, hpure⟩ := bind_eq_ok h
      cases hpure
      exact SimpleRead.attribute htest
    · obtain ⟨⟨condition, r⟩, hcondition, hpure⟩ := bind_eq_ok h
      cases hpure
      exact SimpleRead.pseudo hcondition
    · cases h
  · intro h
    cases h with
    | idName hne => rw [takeSimple, if_neg (by simpa using hne)]
    | className hstart => rw [takeSimple, if_pos hstart]
    | «attribute» h =>
        rw [takeSimple, h]
        rfl
    | pseudo h =>
        rw [takeSimple, h]
        rfl

/-! ## Conditions -/

/-- `text` begins with a mark and is read as the condition `x`. -/
structure SimpleText (text : List Char) (x : SimpleSelector) : Prop where
  mark : ∃ c cs, text = c :: cs ∧ IsMark c
  reads : ∀ rest, EndsSimple rest → takeSimple (text ++ rest) = .ok (some (x, rest))

/-- `text` is read as the conditions `xs`, one after the other. -/
inductive SimplesText : List Char → Compound → Prop
  | nil : SimplesText [] []
  | cons {text text' : List Char} {x : SimpleSelector} {xs : Compound} (hx : SimpleText text x)
      (hxs : SimplesText text' xs) : SimplesText (text ++ text') (x :: xs)

theorem SimplesText.single {text : List Char} {x : SimpleSelector} (h : SimpleText text x) :
    SimplesText text [x] := by
  have hcons := SimplesText.cons h SimplesText.nil
  rw [List.append_nil] at hcons
  exact hcons

theorem SimplesText.append {text text' : List Char} {xs ys : Compound} (h : SimplesText text xs)
    (h' : SimplesText text' ys) : SimplesText (text ++ text') (xs ++ ys) := by
  induction h with
  | nil => exact h'
  | cons hx hxs ih =>
      rw [List.append_assoc]
      exact SimplesText.cons hx ih

/-- A condition ends in front of conditions, as it does in front of what follows them. -/
theorem SimplesText.endsSimple {text rest : List Char} {xs : Compound} (h : SimplesText text xs)
    (hrest : EndsSimple rest) : EndsSimple (text ++ rest) := by
  cases h with
  | nil => exact hrest
  | cons hx hxs =>
      obtain ⟨c, cs, rfl, hc⟩ := hx.mark
      exact endsSimple_of_isMark hc _

theorem takeSimples_none {s : List Char} (h : takeSimple s = .ok none) :
    takeSimples s = .ok ([], s) := by
  rw [takeSimples]
  split <;> simp_all

theorem takeSimples_error {s : List Char} {fault : Fault} (h : takeSimple s = .error fault) :
    takeSimples s = .error fault := by
  rw [takeSimples]
  split <;> simp_all

theorem takeSimples_cons {s rest : List Char} {x : SimpleSelector}
    (h : takeSimple s = .ok (some (x, rest))) :
    takeSimples s = takeSimples rest >>= fun others => pure (x :: others.1, others.2) := by
  rw [takeSimples]
  split
  · simp_all
  · simp_all
  · rename_i heq
    rw [h] at heq
    cases heq
    rfl

theorem takeSimples_some {s rest rest' : List Char} {x : SimpleSelector} {xs : Compound}
    (h : takeSimple s = .ok (some (x, rest))) (hrest : takeSimples rest = .ok (xs, rest')) :
    takeSimples s = .ok (x :: xs, rest') := by
  rw [takeSimples_cons h, hrest]
  rfl

/-- Conditions are read one after the other, up to where the compound ends. -/
theorem takeSimples_of_simplesText {text : List Char} {xs : Compound} (h : SimplesText text xs)
    {rest : List Char} (hrest : EndsCompound rest) :
    takeSimples (text ++ rest) = .ok (xs, rest) := by
  induction h with
  | nil => exact takeSimples_none (takeSimple_of_endsCompound hrest)
  | cons hx hxs ih =>
      rw [List.append_assoc]
      exact takeSimples_some (hx.reads _ (hxs.endsSimple (endsSimple_of_endsCompound hrest))) ih

/-! ## Compounds -/

/-- `text` is read as the compound `c`: with a type, with the universal selector, or with
    neither of them in front. -/
inductive CompoundText : List Char → Compound → Prop
  | typed {n : String} {text : List Char} {xs : Compound} (hn : IsName n)
      (h : SimplesText text xs) : CompoundText (nameText n ++ text) (.typeName n :: xs)
  | universal {text : List Char} {xs : Compound} (h : SimplesText text xs) :
      CompoundText ('*' :: text) (.universal :: xs)
  | plain {text : List Char} {xs : Compound} (h : SimplesText text xs) (hne : xs ≠ []) :
      CompoundText text xs

/-- Conditions may be added to a compound on its right. -/
theorem CompoundText.append {text text' : List Char} {c xs : Compound} (h : CompoundText text c)
    (h' : SimplesText text' xs) : CompoundText (text ++ text') (c ++ xs) := by
  cases h with
  | typed hn h =>
      rw [List.append_assoc]
      exact CompoundText.typed hn (h.append h')
  | universal h => exact CompoundText.universal (h.append h')
  | plain h hne =>
      exact CompoundText.plain (h.append h') (List.append_ne_nil_of_left_ne_nil hne xs)

/-- Conditions alone begin with no type. -/
theorem takeType_of_simplesText {text rest : List Char} {xs : Compound} (h : SimplesText text xs)
    (hne : xs ≠ []) : takeType (text ++ rest) = ([], text ++ rest) := by
  cases h with
  | nil => exact absurd rfl hne
  | cons hx hxs =>
      obtain ⟨d, ds, rfl, hd⟩ := hx.mark
      rcases hd with rfl | rfl | rfl | rfl <;> rfl

theorem takeType_nameText {n : String} (hn : IsName n) {rest : List Char} (hrest : EndsName rest) :
    takeType (nameText n ++ rest) = ([.typeName n], rest) := by
  have hstart := startsName_nameText hn rest
  unfold takeType
  split
  · rename_i heq
    rw [heq] at hstart
    exact absurd rfl (ne_of_startsName hstart (by decide) (by decide) (by decide))
  · rw [if_pos hstart, takeName_nameText hn hrest, String.ofList_toList]

/-- A compound is the type in front, or none, and the conditions behind it. -/
theorem takeCompound_eq_ok_iff {s rest : List Char} {c : Compound} :
    takeCompound s = .ok (c, rest) ↔
      c ≠ [] ∧ ∃ others, takeSimples (takeType s).2 = .ok (others, rest) ∧
        c = (takeType s).1 ++ others := by
  constructor
  · intro h
    obtain ⟨⟨others, r⟩, hothers, h⟩ := bind_eq_ok h
    dsimp only at h
    split at h
    · cases h
    · rename_i hne
      cases h
      exact ⟨by simpa using hne, others, hothers, rfl⟩
  · rintro ⟨hne, others, hothers, rfl⟩
    rw [takeCompound, hothers]
    show (if ((takeType s).1 ++ others == []) = true then _ else _) = _
    rw [if_neg (by simpa using hne)]
    rfl

/-- A compound is read whole where it ends. -/
theorem takeCompound_of_compoundText {text : List Char} {c : Compound} (h : CompoundText text c)
    {rest : List Char} (hrest : EndsCompound rest) :
    takeCompound (text ++ rest) = .ok (c, rest) := by
  rw [takeCompound_eq_ok_iff]
  cases h with
  | typed hn h =>
      have hends := h.endsSimple (endsSimple_of_endsCompound hrest)
      rw [List.append_assoc, takeType_nameText hn (endsName_of_endsSimple hends)]
      exact ⟨List.cons_ne_nil _ _, _, takeSimples_of_simplesText h hrest, rfl⟩
  | universal h =>
      exact ⟨List.cons_ne_nil _ _, _, takeSimples_of_simplesText h hrest, rfl⟩
  | plain h hne =>
      -- Without a type there has to be a condition, or the compound would be empty.
      rw [takeType_of_simplesText h hne]
      exact ⟨hne, c, takeSimples_of_simplesText h hrest, rfl⟩

theorem takeType_of_head {s : List Char} (hs : s.head? ≠ some '*') :
    takeType s = if startsName s then ([.typeName (String.ofList (takeName s).1)], (takeName s).2)
      else ([], s) := by
  unfold takeType
  split
  · exact absurd rfl hs
  · rfl

theorem head?_ne_star {rest : List Char} (h : EndsCompound rest) : rest.head? ≠ some '*' := by
  intro hstar
  rcases h '*' hstar with h | h | h | h <;> exact absurd h (by decide)

/-- No compound can be read where one ends. -/
theorem takeCompound_of_endsCompound {rest : List Char} (h : EndsCompound rest) :
    takeCompound rest = failAt rest .simpleSelector := by
  have htype : takeType rest = ([], rest) := by
    rw [takeType_of_head (head?_ne_star h), if_neg (by simp [startsName_of_endsCompound h])]
  rw [takeCompound, htype]
  dsimp only
  rw [takeSimples_none (takeSimple_of_endsCompound h)]
  rfl

theorem not_endsCompound_of_takeCompound {s rest : List Char} {c : Compound}
    (h : takeCompound s = .ok (c, rest)) : ¬ EndsCompound s := by
  intro hends
  rw [takeCompound_of_endsCompound hends] at h
  cases h

theorem CompoundText.not_endsCompound {text : List Char} {c : Compound} (h : CompoundText text c) :
    ¬ EndsCompound text := by
  have hread := takeCompound_of_compoundText h endsCompound_nil
  rw [List.append_nil] at hread
  exact not_endsCompound_of_takeCompound hread

/-- A compound begins with no blank and with no combinator. -/
theorem CompoundText.head {text : List Char} {c : Compound} (h : CompoundText text c) :
    ∃ d ds, text = d :: ds ∧ isSpace d = false ∧ d ≠ '>' ∧ d ≠ '+' ∧ d ≠ '~' :=
  exists_cons_of_not_endsCompound h.not_endsCompound

/-! ## Combinators -/

/-- `gap` stands for a combinator between two compounds. -/
inductive CombinatorText : List Char → Combinator → Prop
  | descendant {w : List Char} (hw : Blanks w) (hne : w ≠ []) : CombinatorText w .descendant
  | child {w w' : List Char} (hw : Blanks w) (hw' : Blanks w') :
      CombinatorText (w ++ '>' :: w') .child
  | nextSibling {w w' : List Char} (hw : Blanks w) (hw' : Blanks w') :
      CombinatorText (w ++ '+' :: w') .nextSibling
  | subsequentSibling {w w' : List Char} (hw : Blanks w) (hw' : Blanks w') :
      CombinatorText (w ++ '~' :: w') .subsequentSibling

theorem endsCompound_blanks {w rest : List Char} (hw : Blanks w) (hrest : EndsCompound rest) :
    EndsCompound (w ++ rest) := by
  cases w with
  | nil => exact hrest
  | cons c cs => exact endsCompound_cons (Or.inl (hw c List.mem_cons_self)) _

theorem CombinatorText.endsCompound {gap : List Char} {k : Combinator} (h : CombinatorText gap k)
    (rest : List Char) : EndsCompound (gap ++ rest) := by
  cases h with
  | descendant hw hne =>
      cases gap with
      | nil => exact absurd rfl hne
      | cons c cs => exact endsCompound_cons (Or.inl (hw c List.mem_cons_self)) _
  | child hw hw' =>
      rw [List.append_assoc]
      exact endsCompound_blanks hw (endsCompound_cons (Or.inr (Or.inl rfl)) _)
  | nextSibling hw hw' =>
      rw [List.append_assoc]
      exact endsCompound_blanks hw (endsCompound_cons (Or.inr (Or.inr (Or.inl rfl))) _)
  | subsequentSibling hw hw' =>
      rw [List.append_assoc]
      exact endsCompound_blanks hw (endsCompound_cons (Or.inr (Or.inr (Or.inr rfl))) _)

/-- In front of a compound the combinator is read, with the blanks on both sides. -/
theorem takeCombinator_of_combinatorText {gap rest : List Char} {k : Combinator}
    (h : CombinatorText gap k) (hrest : ¬ EndsCompound rest) :
    takeCombinator (gap ++ rest) = .ok (some (k, rest)) := by
  obtain ⟨d, ds, rfl, hspace, hgt, hplus, htilde⟩ := exists_cons_of_not_endsCompound hrest
  have hskip : ∀ {w : List Char}, Blanks w → skipSpace (w ++ d :: ds) = d :: ds := by
    intro w hw
    rw [skipSpace_append hw, skipSpace_cons hspace]
  unfold takeCombinator
  cases h with
  | descendant hw hne =>
      -- What follows the blanks is no other combinator, so they are the combinator themselves.
      rw [hskip hw]
      cases gap with
      | nil => exact absurd rfl hne
      | cons b bs =>
          have hb : isSpace b = true := hw b List.mem_cons_self
          split
          · rename_i heq; cases heq
          · rename_i heq; exact absurd (List.cons.inj heq).1 hgt
          · rename_i heq; exact absurd (List.cons.inj heq).1 hplus
          · rename_i heq; exact absurd (List.cons.inj heq).1 htilde
          · rw [if_pos (by simpa using hb)]
  | child hw hw' =>
      rw [List.append_assoc, skipSpace_append hw, List.cons_append, skipSpace_cons (by decide)]
      show Except.ok (some (_, skipSpace _)) = _
      rw [hskip hw']
  | nextSibling hw hw' =>
      rw [List.append_assoc, skipSpace_append hw, List.cons_append, skipSpace_cons (by decide)]
      show Except.ok (some (_, skipSpace _)) = _
      rw [hskip hw']
  | subsequentSibling hw hw' =>
      rw [List.append_assoc, skipSpace_append hw, List.cons_append, skipSpace_cons (by decide)]
      show Except.ok (some (_, skipSpace _)) = _
      rw [hskip hw']

/-! ## Selectors -/

/-- The compounds of a selector, the subject first. -/
def Selector.compounds (s : Selector) : List Compound :=
  s.subject :: s.chain.map Prod.snd

theorem Selector.compounds_extend (s : Selector) (combinator : Combinator) (c : Compound) :
    (s.extend combinator c).compounds = c :: s.compounds :=
  rfl

/-- `text` is read as the selector `s`, compound by compound from the left. -/
inductive SelectorText : List Char → Selector → Prop
  | compound {text : List Char} {c : Compound} (hc : CompoundText text c) :
      SelectorText text { subject := c }
  | extend {text gap text' : List Char} {s : Selector} {k : Combinator} {c : Compound}
      (hs : SelectorText text s) (hk : CombinatorText gap k) (hc : CompoundText text' c) :
      SelectorText (text ++ (gap ++ text')) (s.extend k c)

theorem SelectorText.head {text : List Char} {s : Selector} (h : SelectorText text s) :
    ∃ d ds, text = d :: ds ∧ isSpace d = false := by
  induction h with
  | compound hc =>
      obtain ⟨d, ds, htext, hspace, -⟩ := hc.head
      exact ⟨d, ds, htext, hspace⟩
  | extend hs hk hc ih =>
      obtain ⟨d, ds, rfl, hspace⟩ := ih
      exact ⟨d, _, rfl, hspace⟩

theorem takeChain_none {s : List Char} (h : takeCombinator s = .ok none) (sofar : Selector) :
    takeChain sofar s = .ok sofar := by
  rw [takeChain]
  split <;> simp_all

theorem takeChain_error {s : List Char} {fault : Fault} (h : takeCombinator s = .error fault)
    (sofar : Selector) : takeChain sofar s = .error fault := by
  rw [takeChain]
  split <;> simp_all

theorem takeChain_some {s rest : List Char} {k : Combinator}
    (h : takeCombinator s = .ok (some (k, rest))) (sofar : Selector) :
    takeChain sofar s = takeCompound rest >>= fun c => takeChain (sofar.extend k c.1) c.2 := by
  rw [takeChain]
  split
  · simp_all
  · simp_all
  · rename_i heq
    rw [h] at heq
    cases heq
    split
    · rename_i heq
      rw [heq]
      rfl
    · rename_i heq
      rw [heq]
      rfl

/-- One more compound is read and becomes the subject. -/
theorem takeChain_extend {gap text rest : List Char} {s : Selector} {k : Combinator} {c : Compound}
    (hk : CombinatorText gap k) (hc : CompoundText text c) (hrest : EndsCompound rest) :
    takeChain s (gap ++ (text ++ rest)) = takeChain (s.extend k c) rest := by
  have hbegins := not_endsCompound_append hc.not_endsCompound rest
  rw [takeChain_some (takeCombinator_of_combinatorText hk hbegins),
    takeCompound_of_compoundText hc hrest]
  rfl

theorem takeSelector_of_selectorText {text : List Char} {s : Selector} (h : SelectorText text s)
    {rest : List Char} (hrest : EndsCompound rest) :
    takeSelector (text ++ rest) = takeChain s rest := by
  induction h generalizing rest with
  | compound hc =>
      rw [takeSelector, takeCompound_of_compoundText hc hrest]
      rfl
  | extend hs hk hc ih =>
      rw [List.append_assoc, List.append_assoc, ih (hk.endsCompound _),
        takeChain_extend hk hc hrest]

/-- Blanks at the end of the text end the chain. -/
theorem takeChain_blanks {w : List Char} (hw : Blanks w) (s : Selector) :
    takeChain s w = .ok s := by
  apply takeChain_none
  rw [takeCombinator, skipSpace_blanks hw]

theorem ofList_of_eq_nil {s : List Char} (h : skipSpace s = []) : ofList s = .error .empty := by
  rw [ofList, if_pos (beq_iff_eq.mpr h)]

theorem ofList_of_ne_nil {s : List Char} (h : skipSpace s ≠ []) :
    ofList s = (takeSelector (skipSpace s)).mapError (Fault.toError s.length) := by
  rw [ofList, if_neg (by simpa using h)]

theorem exists_ofList_error {s : List Char} {fault : Fault}
    (h : takeSelector (skipSpace s) = .error fault) : ∃ cause, ofList s = .error cause := by
  by_cases hnil : skipSpace s = []
  · exact ⟨.empty, ofList_of_eq_nil hnil⟩
  · rw [ofList_of_ne_nil hnil, h]
    exact ⟨_, rfl⟩

theorem takeSelector_of_ofList {s : List Char} {x : Selector} (h : ofList s = .ok x) :
    skipSpace s ≠ [] ∧ takeSelector (skipSpace s) = .ok x := by
  have hne : skipSpace s ≠ [] := by
    intro hnil
    rw [ofList_of_eq_nil hnil] at h
    cases h
  rw [ofList_of_ne_nil hne] at h
  refine ⟨hne, ?_⟩
  cases hread : takeSelector (skipSpace s) with
  | error fault => rw [hread] at h; cases h
  | ok y => rw [hread] at h; cases h; rfl

theorem ofList_of_takeSelector {s : List Char} {x : Selector} (hne : skipSpace s ≠ [])
    (h : takeSelector (skipSpace s) = .ok x) : ofList s = .ok x := by
  rw [ofList_of_ne_nil hne, h]
  rfl

/-- A selector is read whole, with blanks on both sides or none. -/
theorem ofList_of_selectorText {lead text trail : List Char} {s : Selector} (hlead : Blanks lead)
    (h : SelectorText text s) (htrail : Blanks trail) :
    Selector.ofList (lead ++ (text ++ trail)) = .ok s := by
  obtain ⟨d, ds, htext, hspace⟩ := h.head
  have hskip : skipSpace (lead ++ (text ++ trail)) = text ++ trail := by
    rw [skipSpace_append hlead, htext, List.cons_append, skipSpace_cons hspace]
  have hne : text ++ trail ≠ [] := by simp [htext]
  -- The blanks behind the last compound end it, and there is no combinator in them.
  have hends : EndsCompound trail := by
    have := endsCompound_blanks htrail endsCompound_nil
    rwa [List.append_nil] at this
  apply ofList_of_takeSelector (by rwa [hskip])
  rw [hskip, takeSelector_of_selectorText h hends, takeChain_blanks htrail]

/-- A text of one compound is the selector of that compound. -/
theorem ofString_compound {text : String} {c : Compound} (h : CompoundText text.toList c) :
    Selector.ofString text = .ok { subject := c } := by
  have hread := ofList_of_selectorText blanks_nil (SelectorText.compound h) blanks_nil
  rw [List.append_nil, List.nil_append] at hread
  exact hread

/-! ## Conditions that cannot be read -/

/-- A condition begins here that cannot be read. -/
structure FaultyText (text : List Char) (fault : Fault) : Prop where
  mark : ∃ c cs, text = c :: cs ∧ IsMark c
  faults : takeSimple text = .error fault

section Faulty

variable {text rest : List Char} {xs : Compound} {fault : Fault}

theorem takeSimples_faulty (h : SimplesText text xs) (hrest : FaultyText rest fault) :
    takeSimples (text ++ rest) = .error fault := by
  induction h with
  | nil => exact takeSimples_error hrest.faults
  | @cons text text' x xs hx hxs ih =>
      have hends : EndsSimple rest := by
        obtain ⟨c, cs, rfl, hc⟩ := hrest.mark
        exact endsSimple_of_isMark hc cs
      have hfirst := hx.reads (text' ++ rest) (hxs.endsSimple hends)
      rw [List.append_assoc, takeSimples_cons hfirst, ih]
      rfl

/-- A compound fails with a condition behind it that cannot be read. -/
theorem takeCompound_faulty (h : text = [] ∨ CompoundText text xs) (hrest : FaultyText rest fault) :
    takeCompound (text ++ rest) = .error fault := by
  unfold takeCompound
  rcases h with rfl | h
  · obtain ⟨c, cs, rfl, hc⟩ := hrest.mark
    have htype : takeType (c :: cs) = ([], c :: cs) := by
      rcases hc with rfl | rfl | rfl | rfl <;> rfl
    rw [List.nil_append, htype, takeSimples_error hrest.faults]
    rfl
  · cases h with
    | typed hn h =>
        obtain ⟨c, cs, rfl, hc⟩ := hrest.mark
        have hends := endsName_of_endsSimple (h.endsSimple (endsSimple_of_isMark hc cs))
        rw [List.append_assoc, takeType_nameText hn hends, takeSimples_faulty h hrest]
        rfl
    | universal h =>
        show (takeSimples (_ ++ rest) >>= _) = _
        rw [takeSimples_faulty h hrest]
        rfl
    | plain h hne =>
        rw [takeType_of_simplesText h hne, takeSimples_faulty h hrest]
        rfl

theorem ofList_faulty (h : text = [] ∨ CompoundText text xs) (hrest : FaultyText rest fault) :
    ∃ cause, Selector.ofList (text ++ rest) = .error cause := by
  have hhead : ∃ d ds, text ++ rest = d :: ds ∧ isSpace d = false := by
    rcases h with rfl | h
    · obtain ⟨c, cs, rfl, hc⟩ := hrest.mark
      refine ⟨c, cs, rfl, ?_⟩
      rcases hc with rfl | rfl | rfl | rfl <;> decide
    · obtain ⟨d, ds, rfl, hspace, -⟩ := h.head
      exact ⟨d, ds ++ rest, rfl, hspace⟩
  obtain ⟨d, ds, htext, hspace⟩ := hhead
  have hskip : skipSpace (text ++ rest) = text ++ rest := by
    rw [htext, skipSpace_cons hspace]
  have hread : takeSelector (skipSpace (text ++ rest)) = .error fault := by
    rw [hskip, takeSelector, takeCompound_faulty h hrest]
    rfl
  exact exists_ofList_error hread

end Faulty

end UniqueSelector
