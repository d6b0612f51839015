/-
  UniqueSelector.Proofs.Selector.Spelling

  The spellings of a selector, and that each of them reads back as it. Names
  and values are written as identifiers; a value may stand between quotes of
  either kind, or bare if it is not empty; blanks may stand wherever they carry
  no meaning, and one at least makes the descendant combinator.

    * `Selector.WellFormed` — the selectors that have spellings.
    * `SimpleSelector.Spelling`, `Compound.Spelling`, `Selector.Spelling` — the
      spellings, as relations that follow the data.
    * `Selector.print` — one spelling of each well-formed selector.

  A spelling is a text that the readers take whole (`selectorText_of_spelling`);
  the induction is along the compounds, from the leftmost on.
-/

import UniqueSelector.Proofs.Selector.Conditions

namespace UniqueSelector

open Text Identifier Selector

/-! ## Well-formed selectors -/

/-- The name can be written, and so can the value, which may be empty. -/
def AttributeTest.WellFormed (test : AttributeTest) : Prop :=
  IsName test.name ∧
    ∀ operator value, test.agreement? = some (operator, value) → '\x00' ∉ value.toList

/-- Every name in the condition can be written. -/
def SimpleSelector.WellFormed : SimpleSelector → Prop
  | .typeName n => IsName n
  | .className n => IsName n
  | .idName n => IsName n
  | .attribute test => test.WellFormed
  | .universal => True
  | .pseudo _ => True

/-- The type selectors, which can only stand first in a compound. -/
def SimpleSelector.IsType : SimpleSelector → Prop
  | .typeName _ => True
  | .universal => True
  | _ => False

/-- A compound has a condition, and a type at most in the first place. -/
structure Compound.WellFormed (c : Compound) : Prop where
  ne_nil : c ≠ []
  type_first : ∀ x ∈ c.tail, ¬ x.IsType
  each : ∀ x ∈ c, x.WellFormed

structure Selector.WellFormed (s : Selector) : Prop where
  subject : s.subject.WellFormed
  chain : ∀ link ∈ s.chain, link.2.WellFormed

/-! ## Spellings -/

/-- How the value of an attribute may be written. -/
inductive ValueSpelling (value : String) : List Char → Prop
  | quoted {e : String} {quote : Char} (he : escape value = .ok e) (hquote : IsQuote quote) :
      ValueSpelling value (quote :: (e.toList ++ [quote]))
  | bare {e : String} (he : escape value = .ok e) (hne : value ≠ "") :
      ValueSpelling value e.toList

/-- How a condition on an attribute may be written between its brackets. -/
inductive AttributeTest.Spelling : AttributeTest → List Char → Prop
  | present {n e : String} {w w' : List Char} (hw : Blanks w) (he : escape n = .ok e)
      (hw' : Blanks w') : Spelling { name := n } (w ++ (e.toList ++ w'))
  | agrees {n e value : String} {operator : AttributeOperator} {w₁ w₂ w₃ w₄ text : List Char}
      (h₁ : Blanks w₁) (he : escape n = .ok e) (h₂ : Blanks w₂) (h₃ : Blanks w₃)
      (hvalue : ValueSpelling value text) (h₄ : Blanks w₄) :
      Spelling { name := n, agreement? := some (operator, value) }
        (w₁ ++ (e.toList ++ (w₂ ++ (operator.text ++ (w₃ ++ (text ++ w₄))))))

/-- How a condition may be written. -/
inductive SimpleSelector.Spelling : SimpleSelector → List Char → Prop
  | typeName {n e : String} (he : escape n = .ok e) : Spelling (.typeName n) e.toList
  | universal : Spelling .universal ['*']
  | className {n e : String} (he : escape n = .ok e) : Spelling (.className n) ('.' :: e.toList)
  | idName {n e : String} (he : escape n = .ok e) : Spelling (.idName n) ('#' :: e.toList)
  | attribute {test : AttributeTest} {text : List Char} (h : test.Spelling text) :
      Spelling (.attribute test) ('[' :: (text ++ [']']))
  | pseudo (condition : PseudoClass) : Spelling (.pseudo condition) (':' :: condition.text)

/-- A compound is written as its conditions, one right after the other. -/
inductive Compound.Spelling : Compound → List Char → Prop
  | nil : Spelling [] []
  | cons {x : SimpleSelector} {xs : Compound} {text text' : List Char} (hx : x.Spelling text)
      (hxs : Spelling xs text') : Spelling (x :: xs) (text ++ text')

/-- How the compounds of a selector and the combinators between them may be written. -/
inductive Selector.BodySpelling : Selector → List Char → Prop
  | compound {c : Compound} {text : List Char} (hc : c.Spelling text) :
      BodySpelling { subject := c } text
  | extend {s : Selector} {k : Combinator} {c : Compound} {text gap text' : List Char}
      (hs : BodySpelling s text) (hk : CombinatorText gap k) (hc : c.Spelling text') :
      BodySpelling (s.extend k c) (text ++ (gap ++ text'))

/-- How a selector may be written: blanks do not count on either side. -/
inductive Selector.Spelling (s : Selector) : List Char → Prop
  | padded {lead body trail : List Char} (hlead : Blanks lead) (hbody : s.BodySpelling body)
      (htrail : Blanks trail) : Spelling s (lead ++ (body ++ trail))

/-! ## Spellings are texts that the readers take -/

theorem valueText_of_spelling {value : String} {text : List Char} (h : ValueSpelling value text)
    (hnul : '\x00' ∉ value.toList) : ValueText text value := by
  cases h with
  | quoted he hquote =>
      rw [nameText_of_escape he]
      exact valueText_quoted hquote hnul
  | bare he hne =>
      rw [nameText_of_escape he]
      exact valueText_bare ⟨hne, hnul⟩

theorem simpleText_of_attribute {test : AttributeTest} {text : List Char} (h : test.Spelling text)
    (hwf : test.WellFormed) : SimpleText ('[' :: (text ++ [']'])) (.attribute test) := by
  cases h with
  | @present n e w w' hw he hw' =>
      have happend : '[' :: (w ++ (e.toList ++ w') ++ [']']) = presentText w n w' := by
        simp [presentText, nameText_of_escape he]
      rw [happend]
      exact simpleText_present hw hwf.1 hw'
  | @agrees n e value operator w₁ w₂ w₃ w₄ text h₁ he h₂ h₃ hvalue h₄ =>
      have happend : '[' :: (w₁ ++ (e.toList ++ (w₂ ++ (operator.text ++ (w₃ ++ (text ++ w₄))))) ++
          [']']) = agreesText w₁ n w₂ operator w₃ text w₄ := by
        simp [agreesText, nameText_of_escape he]
      have hnul : '\x00' ∉ value.toList := hwf.2 operator value rfl
      rw [happend]
      exact simpleText_agrees h₁ hwf.1 h₂ h₃ (valueText_of_spelling hvalue hnul) h₄

theorem simpleText_of_spelling {x : SimpleSelector} {text : List Char} (h : x.Spelling text)
    (hwf : x.WellFormed) (htype : ¬ x.IsType) : SimpleText text x := by
  cases h with
  | typeName he => exact absurd trivial htype
  | universal => exact absurd trivial htype
  | className he =>
      rw [nameText_of_escape he]
      exact simpleText_className hwf
  | idName he =>
      rw [nameText_of_escape he]
      exact simpleText_idName hwf
  | «attribute» h => exact simpleText_of_attribute h hwf
  | pseudo condition => exact simpleText_pseudo condition

theorem simplesText_of_spelling {xs : Compound} {text : List Char} (h : xs.Spelling text)
    (hwf : ∀ x ∈ xs, x.WellFormed) (htype : ∀ x ∈ xs, ¬ x.IsType) : SimplesText text xs := by
  induction h with
  | nil => exact SimplesText.nil
  | @cons x xs text text' hx hxs ih =>
      have hfirst := simpleText_of_spelling hx (hwf x List.mem_cons_self)
        (htype x List.mem_cons_self)
      exact SimplesText.cons hfirst (ih (fun y hy => hwf y (List.mem_cons_of_mem _ hy))
        (fun y hy => htype y (List.mem_cons_of_mem _ hy)))

theorem compoundText_of_spelling {c : Compound} {text : List Char} (h : c.Spelling text)
    (hwf : c.WellFormed) : CompoundText text c := by
  cases h with
  | nil => exact absurd rfl hwf.ne_nil
  | @cons x xs text text' hx hxs =>
      have hothers : SimplesText text' xs :=
        simplesText_of_spelling hxs (fun y hy => hwf.each y (List.mem_cons_of_mem _ hy))
          hwf.type_first
      have hxwf := hwf.each x List.mem_cons_self
      have hplain : ¬ x.IsType → CompoundText (text ++ text') (x :: xs) := by
        intro htype
        have hfirst := simpleText_of_spelling hx hxwf htype
        exact CompoundText.plain (SimplesText.cons hfirst hothers) (by simp)
      -- Only the first condition may be a type, and that decides how the compound is read.
      cases hx with
      | typeName he =>
          rw [nameText_of_escape he]
          exact CompoundText.typed hxwf hothers
      | universal => exact CompoundText.universal hothers
      | className he => exact hplain id
      | idName he => exact hplain id
      | «attribute» h => exact hplain id
      | pseudo condition => exact hplain id

theorem Selector.WellFormed.of_extend {s : Selector} {k : Combinator} {c : Compound}
    (h : (s.extend k c).WellFormed) : s.WellFormed ∧ c.WellFormed := by
  refine ⟨⟨h.chain (k, s.subject) List.mem_cons_self, fun link hlink => ?_⟩, h.subject⟩
  exact h.chain link (List.mem_cons_of_mem _ hlink)

theorem selectorText_of_spelling {s : Selector} {text : List Char} (h : s.BodySpelling text)
    (hwf : s.WellFormed) : SelectorText text s := by
  induction h with
  | compound hc => exact SelectorText.compound (compoundText_of_spelling hc hwf.subject)
  | extend hs hk hc ih =>
      obtain ⟨hwfs, hwfc⟩ := hwf.of_extend
      exact SelectorText.extend (ih hwfs) hk (compoundText_of_spelling hc hwfc)

/-! ## One spelling of each selector -/

/-- The condition with its value, if any, between double quotes and without blanks. -/
def AttributeTest.print (test : AttributeTest) : List Char :=
  match test.agreement? with
  | none => nameText test.name
  | some (operator, value) =>
      nameText test.name ++ (operator.text ++ ('"' :: (nameText value ++ ['"'])))

def SimpleSelector.print : SimpleSelector → List Char
  | .typeName n => nameText n
  | .universal => ['*']
  | .className n => '.' :: nameText n
  | .idName n => '#' :: nameText n
  | .attribute test => '[' :: (test.print ++ [']'])
  | .pseudo condition => ':' :: condition.text

def Compound.print (c : Compound) : List Char :=
  c.flatMap SimpleSelector.print

def Combinator.print : Combinator → List Char
  | .descendant => [' ']
  | .child => [' ', '>', ' ']
  | .nextSibling => [' ', '+', ' ']
  | .subsequentSibling => [' ', '~', ' ']

/-- A chain and the compound on its right, from the leftmost compound on. -/
def Selector.printChain (c : Compound) : List (Combinator × Compound) → List Char
  | [] => c.print
  | (k, c') :: rest => printChain c' rest ++ (k.print ++ c.print)

/-- A selector with one blank around each combinator. -/
def Selector.print (s : Selector) : List Char :=
  printChain s.subject s.chain

theorem escape_eq_nameText {n : String} (h : '\x00' ∉ n.toList) :
    ∃ e, escape n = .ok e ∧ e.toList = nameText n :=
  ⟨_, escape_eq_ok h, String.toList_ofList⟩

theorem AttributeTest.spelling_print {test : AttributeTest} (h : test.WellFormed) :
    test.Spelling test.print := by
  obtain ⟨e, he, htext⟩ := escape_eq_nameText h.1.2
  obtain ⟨n, agreement?⟩ := test
  cases agreement? with
  | none =>
      have hspelling := AttributeTest.Spelling.present blanks_nil he blanks_nil
      rw [htext, List.append_nil, List.nil_append] at hspelling
      exact hspelling
  | some agreement =>
      obtain ⟨operator, value⟩ := agreement
      obtain ⟨v, hv, hvtext⟩ := escape_eq_nameText (h.2 operator value rfl)
      have hvalue : ValueSpelling value ('"' :: (nameText value ++ ['"'])) := by
        rw [← hvtext]
        exact ValueSpelling.quoted hv (Or.inl rfl)
      have hspelling : AttributeTest.Spelling ⟨n, some (operator, value)⟩ _ :=
        AttributeTest.Spelling.agrees blanks_nil he blanks_nil blanks_nil hvalue blanks_nil
      rw [htext] at hspelling
      simp only [List.append_nil, List.nil_append] at hspelling
      exact hspelling

theorem SimpleSelector.spelling_print {x : SimpleSelector} (h : x.WellFormed) :
    x.Spelling x.print := by
  cases x with
  | typeName n =>
      obtain ⟨e, he, htext⟩ := escape_eq_nameText h.2
      rw [SimpleSelector.print, ← htext]
      exact Spelling.typeName he
  | universal => exact Spelling.universal
  | className n =>
      obtain ⟨e, he, htext⟩ := escape_eq_nameText h.2
      rw [SimpleSelector.print, ← htext]
      exact Spelling.className he
  | idName n =>
      obtain ⟨e, he, htext⟩ := escape_eq_nameText h.2
      rw [SimpleSelector.print, ← htext]
      exact Spelling.idName he
  | «attribute» test => exact Spelling.attribute (AttributeTest.spelling_print h)
  | pseudo condition => exact Spelling.pseudo condition

theorem Compound.spelling_print {c : Compound} (h : ∀ x ∈ c, x.WellFormed) :
    c.Spelling c.print := by
  induction c with
  | nil => exact Spelling.nil
  | cons x xs ih =>
      have hx := SimpleSelector.spelling_print (h x List.mem_cons_self)
      exact Spelling.cons hx (ih fun y hy => h y (List.mem_cons_of_mem _ hy))

theorem Combinator.text_print (k : Combinator) : CombinatorText k.print k := by
  cases k with
  | descendant => exact CombinatorText.descendant blanks_space (by decide)
  | child => exact CombinatorText.child blanks_space blanks_space
  | nextSibling => exact CombinatorText.nextSibling blanks_space blanks_space
  | subsequentSibling => exact CombinatorText.subsequentSibling blanks_space blanks_space

theorem Selector.bodySpelling_print {c : Compound} {chain : List (Combinator × Compound)}
    (hc : c.WellFormed) (hchain : ∀ link ∈ chain, link.2.WellFormed) :
    Selector.BodySpelling { subject := c, chain } (printChain c chain) := by
  induction chain generalizing c with
  | nil => exact BodySpelling.compound (Compound.spelling_print hc.each)
  | cons link rest ih =>
      obtain ⟨k, c'⟩ := link
      have hleft := ih (hchain (k, c') List.mem_cons_self)
        (fun l hl => hchain l (List.mem_cons_of_mem _ hl))
      exact BodySpelling.extend hleft k.text_print (Compound.spelling_print hc.each)

theorem Selector.spelling_print {s : Selector} (h : s.WellFormed) : s.Spelling s.print := by
  have hspelling := Spelling.padded blanks_nil (bodySpelling_print h.subject h.chain) blanks_nil
  rw [List.append_nil, List.nil_append] at hspelling
  exact hspelling

/-! ## Round trip -/

theorem ofList_of_spelling {s : Selector} {chars : List Char} (h : s.Spelling chars)
    (hwf : s.WellFormed) : Selector.ofList chars = .ok s := by
  cases h with
  | padded hlead hbody htrail =>
      exact ofList_of_selectorText hlead (selectorText_of_spelling hbody hwf) htrail

/-- A well-formed selector has a spelling, and every spelling of it reads back as it. -/
theorem ofString_spelling (s : Selector) (h : s.WellFormed) :
    (∃ text : String, s.Spelling text.toList) ∧
      ∀ text : String, s.Spelling text.toList → Selector.ofString text = .ok s := by
  constructor
  · refine ⟨String.ofList s.print, ?_⟩
    rw [String.toList_ofList]
    exact Selector.spelling_print h
  · intro text htext
    exact ofList_of_spelling htext h

theorem ofString_spelling_odd_links :
    let s : Selector :=
      { subject := [.typeName "a", .pseudo (.nthChild { step := 2, offset := -1 })]
        chain := [(.child, [.idName "x"])] }
    s.WellFormed ∧ s.Spelling " #x >a:nth-child(2n-1)".toList ∧
      Selector.ofString " #x >a:nth-child(2n-1)" = .ok s := by
  intro s
  have ha : escape "a" = .ok "a" := rfl
  have hx : escape "x" = .ok "x" := rfl
  have hwf : s.WellFormed := by
    constructor
    · constructor <;> simp [s, SimpleSelector.IsType, SimpleSelector.WellFormed, IsName]
    · intro link hlink
      obtain rfl := List.mem_singleton.mp hlink
      constructor <;> simp [SimpleSelector.WellFormed, IsName]
  have hspelling : s.Spelling " #x >a:nth-child(2n-1)".toList := by
    have hid := Compound.Spelling.cons (.idName hx) .nil
    have hodd := Compound.Spelling.cons (.typeName ha)
      (.cons (.pseudo (.nthChild { step := 2, offset := -1 })) .nil)
    have hbody := Selector.BodySpelling.extend (.compound hid)
      (CombinatorText.child blanks_space blanks_nil) hodd
    exact Selector.Spelling.padded blanks_space hbody blanks_nil
  exact ⟨hwf, hspelling, (ofString_spelling s hwf).2 _ hspelling⟩

end UniqueSelector
