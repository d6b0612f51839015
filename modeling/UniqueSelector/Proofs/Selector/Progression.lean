/-
  UniqueSelector.Proofs.Selector.Progression

  The arguments that `:nth-child` takes. The grammar of progressions has blanks
  at both ends, and around the sign that joins step and offset; the reader drops
  all blanks before it looks, and so takes more texts than that.

    * `AnPlusB.Form`, `AnPlusB.Spelling` — the grammar, with the progression that
      a text of it denotes.
    * `AnPlusB.ofChars?_eq_some_iff` — the arguments that are read.
    * `Selector.ofString_nthChild_iff` — the selectors of one such condition.

  Without blanks the grammar and the reader agree case by case
  (`AnPlusB.form_of_ofChars?`, `AnPlusB.ofChars?_of_form`), and neither of them
  is changed by dropping blanks.
-/

import UniqueSelector.Proofs.Selector.Conditions

namespace UniqueSelector

open Text Selector

namespace AnPlusB

/-! ## The grammar -/

/-- What stands before the `n`: a sign alone, or nothing, is a step of one. -/
inductive StepText : List Char → Int64 → Prop
  | one : StepText [] 1
  | plusOne : StepText ['+'] 1
  | minusOne : StepText ['-'] (-1)
  | number {s : List Char} {a : Int64} (h : Numeral s a) : StepText s a

/-- The texts of a progression in small letters, without blanks around them. -/
inductive Form : List Char → AnPlusB → Prop
  | odd : Form "odd".toList ⟨2, 1⟩
  | even : Form "even".toList ⟨2, 0⟩
  | position {s : List Char} {b : Int64} (h : Numeral s b) : Form s ⟨0, b⟩
  | multiples {s : List Char} {a : Int64} (h : StepText s a) : Form (s ++ ['n']) ⟨a, 0⟩
  | progression {s w w' ds : List Char} {sign : Char} {a b : Int64} (h : StepText s a)
      (hw : Blanks w) (hsign : sign = '+' ∨ sign = '-') (hw' : Blanks w')
      (h' : Numeral (sign :: ds) b) : Form (s ++ 'n' :: (w ++ sign :: (w' ++ ds))) ⟨a, b⟩

/-- How a progression may be written. The case of letters does not count, nor do blanks on either
    side. -/
inductive Spelling : List Char → AnPlusB → Prop
  | padded {lead core trail : List Char} {p : AnPlusB} (hlead : Blanks lead)
      (h : Form (core.map Char.toLower) p) (htrail : Blanks trail) :
      Spelling (lead ++ (core ++ trail)) p

/-! ## Without blanks -/

/-- A text without its blanks. -/
def dropBlanks (s : List Char) : List Char :=
  s.filter (!isSpace ·)

theorem dropBlanks_append (s t : List Char) : dropBlanks (s ++ t) = dropBlanks s ++ dropBlanks t :=
  List.filter_append _ _

theorem dropBlanks_cons {c : Char} (hc : isSpace c = false) (s : List Char) :
    dropBlanks (c :: s) = c :: dropBlanks s := by
  rw [dropBlanks, List.filter_cons_of_pos (by simp [hc])]
  rfl

theorem dropBlanks_blanks {w : List Char} (hw : Blanks w) : dropBlanks w = [] := by
  rw [dropBlanks, List.filter_eq_nil_iff]
  intro c hc
  simp [hw c hc]

theorem dropBlanks_self {s : List Char} (h : ∀ c ∈ s, isSpace c = false) : dropBlanks s = s := by
  rw [dropBlanks, List.filter_eq_self]
  intro c hc
  simp [h c hc]

theorem isSpace_of_mem_dropBlanks {s : List Char} {c : Char} (h : c ∈ dropBlanks s) :
    isSpace c = false := by
  simpa using (List.mem_filter.mp h).2

theorem dropBlanks_map_toLower (s : List Char) :
    dropBlanks (s.map Char.toLower) = (dropBlanks s).map Char.toLower := by
  rw [dropBlanks, dropBlanks, List.filter_map]
  congr 2
  funext c
  rw [Function.comp_apply, isSpace_toLower]

/-- A text without its blanks, in lower case. -/
def letters (s : List Char) : List Char :=
  (dropBlanks s).map Char.toLower

theorem isSpace_of_mem_letters {s : List Char} {c : Char} (h : c ∈ letters s) :
    isSpace c = false := by
  obtain ⟨d, hd, rfl⟩ := List.mem_map.mp h
  rw [isSpace_toLower]
  exact isSpace_of_mem_dropBlanks hd

theorem letters_letters (s : List Char) : letters (letters s) = letters s := by
  rw [letters, dropBlanks_self fun c hc => isSpace_of_mem_letters hc, letters, List.map_map]
  exact List.map_congr_left fun c _ => toLower_toLower c

/-- The reader looks at nothing but the letters of its argument. -/
theorem ofChars?_letters (argument : List Char) :
    ofChars? (letters argument) = ofChars? argument := by
  have hletters := letters_letters argument
  rw [letters, dropBlanks] at hletters
  rw [ofChars?, ofChars?, hletters]
  rfl

/-! ## Numbers -/

theorem isNumeric_of_numeral {s : List Char} {w : Int64} (h : Numeral s w) :
    ∀ c ∈ s, IsNumeric c := by
  cases h with
  | bare hds _ => exact fun c hc => Or.inl (hds.2 c hc)
  | plus hds _ =>
      intro c hc
      rcases List.mem_cons.mp hc with rfl | hc
      · exact Or.inr (Or.inr rfl)
      · exact Or.inl (hds.2 c hc)
  | minus hds _ =>
      intro c hc
      rcases List.mem_cons.mp hc with rfl | hc
      · exact Or.inr (Or.inl rfl)
      · exact Or.inl (hds.2 c hc)

theorem isNumeric_of_stepText {s : List Char} {a : Int64} (h : StepText s a) :
    ∀ c ∈ s, IsNumeric c := by
  cases h with
  | one => exact fun c hc => nomatch hc
  | plusOne =>
      intro c hc
      exact Or.inr (Or.inr (List.mem_singleton.mp hc))
  | minusOne =>
      intro c hc
      exact Or.inr (Or.inl (List.mem_singleton.mp hc))
  | number h => exact isNumeric_of_numeral h

theorem stepOf?_eq_some_iff {s : List Char} {a : Int64} : stepOf? s = some a ↔ StepText s a := by
  constructor
  · intro h
    unfold stepOf? at h
    split at h
    · cases h; exact StepText.one
    · cases h; exact StepText.plusOne
    · cases h; exact StepText.minusOne
    · exact StepText.number (integer?_eq_some_iff.mp h)
  · intro h
    cases h with
    | one => rfl
    | plusOne => rfl
    | minusOne => rfl
    | number h =>
        have hread := integer?_eq_some_iff.mpr h
        unfold stepOf?
        split
        -- A sign alone, or nothing, is no numeral.
        · cases hread
        · cases hread
        · cases hread
        · exact hread

theorem offsetOf?_eq_some_iff {s : List Char} {b : Int64} :
    offsetOf? s = some b ↔ s = [] ∧ b = 0 ∨
      ∃ sign ds, s = sign :: ds ∧ (sign = '+' ∨ sign = '-') ∧ Numeral s b := by
  cases s with
  | nil => simp [offsetOf?, eq_comm]
  | cons c cs =>
      rw [offsetOf?]
      constructor
      · intro h
        split at h
        · rename_i hsign
          simp only [Bool.or_eq_true, beq_iff_eq] at hsign
          exact Or.inr ⟨c, cs, rfl, hsign, integer?_eq_some_iff.mp h⟩
        · cases h
      · rintro (⟨hnil, -⟩ | ⟨sign, ds, hcons, hsign, hnumeral⟩)
        · cases hnil
        · cases hcons
          rw [if_pos (by simpa using hsign)]
          exact integer?_eq_some_iff.mpr hnumeral

/-! ## Grammar and reader -/

/-- Dropping the blanks from a text of the grammar leaves a text of the grammar. -/
theorem Form.dropBlanks {s : List Char} {p : AnPlusB} (h : Form s p) : Form (dropBlanks s) p := by
  have hnumeric : ∀ {s : List Char}, (∀ c ∈ s, IsNumeric c) → AnPlusB.dropBlanks s = s :=
    fun h => dropBlanks_self fun c hc => (h c hc).isSpace
  cases h with
  | odd => exact Form.odd
  | even => exact Form.even
  | position h =>
      rw [hnumeric (isNumeric_of_numeral h)]
      exact Form.position h
  | multiples h =>
      rw [dropBlanks_append, hnumeric (isNumeric_of_stepText h)]
      exact Form.multiples h
  | @progression s w w' ds sign a b h hw hsign hw' h' =>
      have hdrop : AnPlusB.dropBlanks (s ++ 'n' :: (w ++ sign :: (w' ++ ds))) =
          s ++ 'n' :: ([] ++ sign :: ([] ++ ds)) := by
        have hspace := (isNumeric_of_numeral h' sign List.mem_cons_self).isSpace
        have hds := hnumeric fun c hc => isNumeric_of_numeral h' c (List.mem_cons_of_mem _ hc)
        rw [dropBlanks_append, hnumeric (isNumeric_of_stepText h), dropBlanks_cons (by decide),
          dropBlanks_append, dropBlanks_blanks hw, dropBlanks_cons hspace, dropBlanks_append,
          dropBlanks_blanks hw', hds]
      rw [hdrop]
      exact Form.progression h blanks_nil hsign blanks_nil h'

theorem eq_nil_of_blanks {w : List Char} (hw : Blanks w) (h : ∀ c ∈ w, isSpace c = false) :
    w = [] := by
  rw [List.eq_nil_iff_forall_not_mem]
  intro c hc
  have hspace := hw c hc
  rw [h c hc] at hspace
  cases hspace

/-- A text of the grammar without blanks is read as what it denotes. -/
theorem ofChars?_of_form {s : List Char} {p : AnPlusB} (h : Form s p)
    (hblank : ∀ c ∈ s, isSpace c = false) : ofChars? s = some p := by
  cases h with
  | odd => decide
  | even => decide
  | position h =>
      have hnumeric := isNumeric_of_numeral h
      have hn : 'n' ∉ s := fun hmem => (hnumeric 'n' hmem).ne (Or.inr (by decide)) rfl
      rw [ofChars?_of_numeric fun c hc => Or.inl (hnumeric c hc), if_neg (by simpa using hn),
        integer?_eq_some_iff.mpr h]
      rfl
  | multiples h =>
      rw [ofChars?_around_n (isNumeric_of_stepText h) (by simp), stepOf?_eq_some_iff.mpr h]
      rfl
  | @progression s w w' ds sign a b h hw hsign hw' h' =>
      obtain rfl : w = [] := eq_nil_of_blanks hw fun c hc => hblank c (by simp [hc])
      obtain rfl : w' = [] := eq_nil_of_blanks hw' fun c hc => hblank c (by simp [hc])
      have hoffset : offsetOf? (sign :: ds) = some b :=
        offsetOf?_eq_some_iff.mpr (Or.inr ⟨sign, ds, rfl, hsign, h'⟩)
      rw [List.nil_append, List.nil_append,
        ofChars?_around_n (isNumeric_of_stepText h) (isNumeric_of_numeral h'),
        stepOf?_eq_some_iff.mpr h, hoffset]
      rfl

/-- What is read from small letters without blanks is what the grammar says. -/
theorem form_of_ofChars? {s : List Char} {p : AnPlusB} (hs : letters s = s)
    (h : ofChars? s = some p) : Form s p := by
  rw [ofChars?, show (s.filter (!isSpace ·)).map Char.toLower = s from hs] at h
  split at h
  · rename_i hodd
    cases h
    rw [eq_of_beq hodd]
    exact Form.odd
  · split at h
    · rename_i heven
      cases h
      rw [eq_of_beq heven]
      exact Form.even
    · split at h
      · rename_i hn
        obtain ⟨step, offset, rfl, hfirst⟩ :=
          List.eq_append_cons_of_mem (List.contains_iff_mem.mp hn)
        obtain ⟨hbefore, hafter⟩ := cutBefore_append_cons hfirst offset
        rw [hbefore, hafter, List.drop_one, List.tail_cons] at h
        simp only [Option.bind_eq_bind, Option.bind_eq_some_iff] at h
        obtain ⟨a, ha, b, hb, hp⟩ := h
        cases hp
        have hstep := stepOf?_eq_some_iff.mp ha
        rcases offsetOf?_eq_some_iff.mp hb with ⟨hnil, rfl⟩ | ⟨sign, ds, hcons, hsign, hnumeral⟩
        · rw [hnil]
          exact Form.multiples hstep
        · rw [hcons] at hnumeral
          rw [hcons]
          exact Form.progression hstep blanks_nil hsign blanks_nil hnumeral
      · obtain ⟨b, hb, hp⟩ := Option.map_eq_some_iff.mp h
        cases hp
        exact Form.position (integer?_eq_some_iff.mp hb)

/-- An argument is read as a progression exactly if it becomes a spelling of it when blanks are
    put in or taken out. -/
theorem ofChars?_eq_some_iff {argument : List Char} {p : AnPlusB} :
    ofChars? argument = some p ↔
      ∃ spelling, Spelling spelling p ∧ dropBlanks spelling = dropBlanks argument := by
  constructor
  · intro h
    rw [← ofChars?_letters] at h
    have hform := form_of_ofChars? (letters_letters argument) h
    have hspelling := Spelling.padded blanks_nil hform blanks_nil
    rw [List.append_nil, List.nil_append] at hspelling
    exact ⟨_, hspelling, dropBlanks_self fun c hc => isSpace_of_mem_dropBlanks hc⟩
  · rintro ⟨spelling, hspelling, hsame⟩
    cases hspelling with
    | @padded lead core trail _ hlead h htrail =>
        rw [dropBlanks_append, dropBlanks_append, dropBlanks_blanks hlead,
          dropBlanks_blanks htrail, List.append_nil, List.nil_append] at hsame
        have hcore := ofChars?_of_form h.dropBlanks fun c hc => isSpace_of_mem_dropBlanks hc
        rw [dropBlanks_map_toLower, hsame] at hcore
        rw [← ofChars?_letters]
        exact hcore

/-- Blanks stand inside a text of the grammar only where an `n` stands. -/
theorem Form.mem_n_of_blank {s : List Char} {p : AnPlusB} (h : Form s p) {c : Char} (hc : c ∈ s)
    (hblank : isSpace c = true) : 'n' ∈ s := by
  cases h with
  | odd =>
      have hnone : "odd".toList.all (!isSpace ·) = true := by decide
      have hspace := List.all_eq_true.mp hnone c hc
      rw [hblank] at hspace
      cases hspace
  | even => decide
  | position h =>
      rw [(isNumeric_of_numeral h c hc).isSpace] at hblank
      cases hblank
  | multiples h => simp
  | progression => simp

end AnPlusB

namespace Selector

/-- With an argument that denotes no positions there is no selector. -/
theorem ofString_nthChild_eq (argument : String) (hclose : ')' ∉ argument.toList) (x : Selector) :
    Selector.ofString (":nth-child(" ++ argument ++ ")") = .ok x ↔
      ∃ p, AnPlusB.ofChars? argument.toList = some p ∧
        x = { subject := [.pseudo (.nthChild p)] } := by
  have htext : (":nth-child(" ++ argument ++ ")").toList =
      ":nth-child(".toList ++ (argument.toList ++ [')']) := by
    rw [String.toList_append, String.toList_append, List.append_assoc]
    rfl
  cases hread : AnPlusB.ofChars? argument.toList with
  | none =>
      have hnone : ([] : List Char) = [] ∨ CompoundText [] [] := Or.inl rfl
      obtain ⟨cause, hcause⟩ := ofList_faulty hnone (faultyText_nthChild hclose hread)
      rw [List.nil_append, ← htext] at hcause
      rw [Selector.ofString, hcause]
      simp
  | some p =>
      have hsimple := simpleText_nthChild hclose hread
      rw [← htext] at hsimple
      rw [ofString_compound (CompoundText.plain (SimplesText.single hsimple) (by simp))]
      simp [eq_comm]

/-- `:nth-child` takes the spellings of progressions, and what becomes one when blanks are put in
    or taken out; the condition is on the positions that the spelling denotes. -/
theorem ofString_nthChild_iff (argument : String) (hclose : ')' ∉ argument.toList) :
    (∀ x, Selector.ofString (":nth-child(" ++ argument ++ ")") = .ok x ↔
      ∃ p spelling, AnPlusB.Spelling spelling p ∧
        AnPlusB.dropBlanks spelling = AnPlusB.dropBlanks argument.toList ∧
        x = { subject := [.pseudo (.nthChild p)] }) ∧
    ∀ p, AnPlusB.Spelling argument.toList p →
      Selector.ofString (":nth-child(" ++ argument ++ ")") =
        .ok { subject := [.pseudo (.nthChild p)] } := by
  have hread : ∀ x, Selector.ofString (":nth-child(" ++ argument ++ ")") = .ok x ↔
      ∃ p spelling, AnPlusB.Spelling spelling p ∧
        AnPlusB.dropBlanks spelling = AnPlusB.dropBlanks argument.toList ∧
        x = { subject := [.pseudo (.nthChild p)] } := by
    intro x
    rw [ofString_nthChild_eq argument hclose]
    simp only [AnPlusB.ofChars?_eq_some_iff]
    constructor
    · rintro ⟨p, ⟨spelling, hspelling, hsame⟩, rfl⟩
      exact ⟨p, spelling, hspelling, hsame, rfl⟩
    · rintro ⟨p, spelling, hspelling, hsame, rfl⟩
      exact ⟨p, ⟨spelling, hspelling, hsame⟩, rfl⟩
  exact ⟨hread, fun p hp => (hread _).mpr ⟨p, _, hp, rfl, rfl⟩⟩

theorem ofString_nthChild_blanks_around_sign :
    ')' ∉ " -N + 3 ".toList ∧ AnPlusB.Spelling " -N + 3 ".toList ⟨-1, 3⟩ ∧
      Selector.ofString ":nth-child( -N + 3 )" =
        .ok { subject := [.pseudo (.nthChild ⟨-1, 3⟩)] } := by
  have hclose : ')' ∉ " -N + 3 ".toList := by decide
  have hdigits : IsDigits ['3'] := ⟨by decide, List.all_eq_true.mp (by decide)⟩
  have hoffset : Numeral ['+', '3'] 3 := Numeral.plus hdigits (by decide)
  have hform : AnPlusB.Form ("-N + 3".toList.map Char.toLower) ⟨-1, 3⟩ :=
    AnPlusB.Form.progression .minusOne blanks_space (Or.inl rfl) blanks_space hoffset
  have hspelling : AnPlusB.Spelling " -N + 3 ".toList ⟨-1, 3⟩ :=
    AnPlusB.Spelling.padded blanks_space hform blanks_space
  exact ⟨hclose, hspelling, (ofString_nthChild_iff " -N + 3 " hclose).2 ⟨-1, 3⟩ hspelling⟩

/-- Blanks between digits, where the grammar has none, do not keep the argument from being
    read. -/
theorem ofString_nthChild_split_digits :
    ')' ∉ "1 2".toList ∧
      Selector.ofString ":nth-child(1 2)" = .ok { subject := [.pseudo (.nthChild ⟨0, 12⟩)] } ∧
      ¬ ∃ p, AnPlusB.Spelling "1 2".toList p := by
  refine ⟨by decide, by decide +kernel, ?_⟩
  rintro ⟨p, hspelling⟩
  rw [show "1 2".toList = ['1', ' ', '2'] from rfl] at hspelling
  generalize htext : ['1', ' ', '2'] = text at hspelling
  cases hspelling with
  | @padded lead core trail _ hlead h htrail =>
      -- Neither end of the text is blank, so all of it is of the grammar, and there is no `n`.
      have hfirst : lead = [] := by
        cases lead with
        | nil => rfl
        | cons c cs =>
            obtain ⟨rfl, -⟩ := List.cons.inj htext
            exact absurd (hlead '1' List.mem_cons_self) (by decide)
      have hlast : trail = [] := by
        rcases List.eq_nil_or_concat trail with rfl | ⟨cs, c, rfl⟩
        · rfl
        · have hc := congrArg List.getLast? htext
          simp only [List.concat_eq_append, ← List.append_assoc, List.getLast?_concat] at hc
          have hspace := htrail c (by simp)
          rw [← show '2' = c from Option.some.inj hc] at hspace
          exact absurd hspace (by decide)
      rw [hfirst, hlast, List.nil_append, List.append_nil] at htext
      rw [← htext] at h
      have hblank : ' ' ∈ ['1', ' ', '2'].map Char.toLower := by decide
      exact absurd (h.mem_n_of_blank hblank rfl) (by decide)

end Selector

end UniqueSelector
