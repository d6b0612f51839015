/-
  UniqueSelector.Proofs.Selector.Conditions

  The texts of single conditions: ids and classes, attributes with every
  operator and every way to write the value, and the pseudo-classes.

    * `simpleText_idName`, `simpleText_className` — names behind a mark.
    * `ValueText`, `simpleText_present`, `simpleText_agrees` — attributes.
    * `ValueRead`, `takeOperator_eq_ok_iff`, `PseudoRead` — what the parts of a
      condition are read from, whatever the text.
    * `takeArgument` — the reader of an argument, on its own.
    * `simpleText_pseudo` — pseudo-classes; `simpleText_nthChild`,
      `faultyText_nthChild` — what an argument comes to.
-/

import UniqueSelector.Proofs.Selector.Texts
import UniqueSelector.Text.Cut

namespace UniqueSelector

open Text Identifier Selector

/-! ## Ids and classes -/

theorem simpleText_idName {n : String} (hn : IsName n) :
    SimpleText ('#' :: nameText n) (.idName n) := by
  refine ⟨⟨'#', _, rfl, Or.inl rfl⟩, fun rest hrest => ?_⟩
  have hread := takeName_nameText hn (endsName_of_endsSimple hrest)
  have hne : n.toList ≠ [] := by simpa using hn.1
  rw [List.cons_append, takeSimple, hread, if_neg (by simpa using hne), String.ofList_toList]

theorem simpleText_className {n : String} (hn : IsName n) :
    SimpleText ('.' :: nameText n) (.className n) := by
  refine ⟨⟨'.', _, rfl, Or.inr (Or.inl rfl)⟩, fun rest hrest => ?_⟩
  have hread := takeName_nameText hn (endsName_of_endsSimple hrest)
  rw [List.cons_append, takeSimple, if_pos (startsName_nameText hn rest), hread,
    String.ofList_toList]

/-! ## Attribute values -/

/-- `text` is read as the value of an attribute. -/
structure ValueText (text : List Char) (value : String) : Prop where
  head : ∃ c cs, text = c :: cs ∧ isSpace c = false
  reads : ∀ rest, EndsName rest → takeValue (text ++ rest) = .ok (value, rest)

theorem takeValue_quoted {quote : Char} (hquote : IsQuote quote) {text value : List Char}
    {rest : List Char} (h : takeQuoted quote text = .ok (value, rest)) :
    takeValue (quote :: text) = .ok (String.ofList value, rest) := by
  rcases hquote with rfl | rfl
  all_goals
    rw [takeValue, h]
    rfl

theorem takeValue_bare {s : List Char} (hstart : startsName s = true) :
    takeValue s = .ok (String.ofList (takeName s).1, (takeName s).2) := by
  -- A name does not begin with a quote.
  unfold takeValue
  split
  · exact absurd rfl (ne_of_startsName hstart (by decide) (by decide) (by decide))
  · exact absurd rfl (ne_of_startsName hstart (by decide) (by decide) (by decide))
  · rw [if_pos hstart]

/-- What a value is read from: a string, or a name. -/
inductive ValueRead : List Char → String → List Char → Prop
  | quoted {quote : Char} {cs value rest : List Char} (hquote : IsQuote quote)
      (h : takeQuoted quote cs = .ok (value, rest)) :
      ValueRead (quote :: cs) (String.ofList value) rest
  | bare {s : List Char} (hstart : startsName s = true) :
      ValueRead s (String.ofList (takeName s).1) (takeName s).2

theorem valueRead_of_takeValue {s rest : List Char} {value : String}
    (h : takeValue s = .ok (value, rest)) : ValueRead s value rest := by
  unfold takeValue at h
  split at h
  · obtain ⟨⟨v, r⟩, hquoted, hpure⟩ := bind_eq_ok h
    cases hpure
    exact ValueRead.quoted (Or.inl rfl) hquoted
  · obtain ⟨⟨v, r⟩, hquoted, hpure⟩ := bind_eq_ok h
    cases hpure
    exact ValueRead.quoted (Or.inr rfl) hquoted
  · split at h
    · rename_i hstart
      cases h
      exact ValueRead.bare hstart
    · cases h

theorem isSpace_quote {quote : Char} (hquote : IsQuote quote) : isSpace quote = false := by
  rcases hquote with rfl | rfl <;> decide

/-- A value between quotes, in its written form. -/
theorem valueText_quoted {quote : Char} {v : String} (hquote : IsQuote quote)
    (hv : '\x00' ∉ v.toList) : ValueText (quote :: (nameText v ++ [quote])) v := by
  refine ⟨⟨quote, _, rfl, isSpace_quote hquote⟩, fun rest _ => ?_⟩
  have hread := takeQuoted_pieces hquote (pieces_escapeChars hv) rest
  have hvalue := takeValue_quoted hquote hread
  rw [String.ofList_toList] at hvalue
  rw [List.cons_append, List.append_assoc]
  exact hvalue

/-- A value between quotes that needs no escapes. -/
theorem valueText_plain {quote : Char} {v : String} (hquote : IsQuote quote)
    (hv : ∀ c ∈ v.toList, c ≠ quote ∧ c ≠ '\n' ∧ c ≠ '\\') :
    ValueText (quote :: (v.toList ++ [quote])) v := by
  refine ⟨⟨quote, _, rfl, isSpace_quote hquote⟩, fun rest _ => ?_⟩
  have hread : ∀ s : List Char, (∀ c ∈ s, c ≠ quote ∧ c ≠ '\n' ∧ c ≠ '\\') →
      takeQuoted quote (s ++ quote :: rest) = .ok (s, rest) := by
    intro s hs
    induction s with
    | nil => exact takeQuoted_end quote rest
    | cons c cs ih =>
        obtain ⟨hq, hline, hback⟩ := hs c List.mem_cons_self
        exact takeQuoted_plain hq hline hback (ih fun d hd => hs d (List.mem_cons_of_mem _ hd))
  have hvalue := takeValue_quoted hquote (hread v.toList hv)
  rw [String.ofList_toList] at hvalue
  rw [List.cons_append, List.append_assoc]
  exact hvalue

/-- A value without quotes, which has to be a name. -/
theorem valueText_bare {v : String} (hv : IsName v) : ValueText (nameText v) v := by
  have hstart : ∀ rest, startsName (nameText v ++ rest) = true := startsName_nameText hv
  refine ⟨?_, fun rest hrest => ?_⟩
  · have h := hstart []
    rw [List.append_nil] at h
    cases hform : nameText v with
    | nil => rw [hform] at h; cases h
    | cons c cs =>
        rw [hform] at h
        exact ⟨c, cs, rfl, isSpace_of_startsName h⟩
  · rw [takeValue_bare (hstart rest), takeName_nameText hv hrest, String.ofList_toList]

/-! ## Attributes -/

/-- An operator as it is written. -/
def AttributeOperator.text : AttributeOperator → List Char
  | .equals => ['=']
  | .word => ['~', '=']
  | .dashed => ['|', '=']
  | .start => ['^', '=']
  | .finish => ['$', '=']
  | .inside => ['*', '=']

theorem takeOperator_text (operator : AttributeOperator) (rest : List Char) :
    takeOperator (operator.text ++ rest) = .ok (some operator, rest) := by
  cases operator <;> rfl

theorem AttributeOperator.text_of_ofMark? {c : Char} {operator : AttributeOperator}
    (h : AttributeOperator.ofMark? c = some operator) : operator.text = [c, '='] := by
  unfold AttributeOperator.ofMark? at h
  split at h <;> cases h <;> rfl

/-- What is read behind the name of an attribute: its operator, or the bracket that ends the
    condition. -/
def operatorText : Option AttributeOperator → List Char
  | none => [']']
  | some operator => operator.text

theorem takeOperator_eq_ok_iff {s rest : List Char} {operator? : Option AttributeOperator} :
    takeOperator s = .ok (operator?, rest) ↔ s = operatorText operator? ++ rest := by
  constructor
  · intro h
    cases s with
    | nil => cases h
    | cons c cs =>
        simp only [takeOperator] at h
        split at h
        · rename_i hc
          cases h
          rw [eq_of_beq hc]
          rfl
        · split at h
          · rename_i hc
            cases h
            rw [eq_of_beq hc]
            rfl
          · split at h
            · cases h
            · rename_i operator hmark
              split at h
              · rename_i hhead
                cases h
                obtain ⟨ds, rfl⟩ := List.head?_eq_some_iff.mp (beq_iff_eq.mp hhead)
                rw [operatorText, AttributeOperator.text_of_ofMark? hmark]
                rfl
              · cases h
  · rintro rfl
    cases operator? with
    | none => rfl
    | some operator => exact takeOperator_text operator rest

theorem AttributeOperator.head_text (operator : AttributeOperator) :
    ∃ c cs, operator.text = c :: cs ∧ isSpace c = false ∧ isNameChar c = false ∧ c ≠ '\\' := by
  cases operator <;> exact ⟨_, _, rfl, by decide, by decide, by decide⟩

/-- Blanks end a name, and so does what may follow them. -/
theorem endsName_blanks {w : List Char} (hw : Blanks w) {c : Char} {rest : List Char}
    (hname : isNameChar c = false) (hback : c ≠ '\\') : EndsName (w ++ c :: rest) := by
  cases w with
  | nil => exact endsName_cons hname hback rest
  | cons b bs =>
      have hblank : isNameChar b = false ∧ b ≠ '\\' := by
        rcases isSpace_cases (hw b List.mem_cons_self) with rfl | rfl | rfl | rfl | rfl <;> decide
      exact endsName_cons hblank.1 hblank.2 _

theorem takeAttributeName_nameText {n : String} (hn : IsName n) {rest : List Char}
    (hrest : EndsName rest) :
    takeAttributeName (nameText n ++ rest) = .ok (n, rest) := by
  rw [takeAttributeName, if_pos (startsName_nameText hn rest), takeName_nameText hn hrest,
    String.ofList_toList]

/-- `[name]`, with blanks on both sides of the name. -/
def presentText (w : List Char) (n : String) (w' : List Char) : List Char :=
  '[' :: (w ++ (nameText n ++ (w' ++ [']'])))

/-- `[name=value]` with some operator, and blanks wherever they may stand. -/
def agreesText (w₁ : List Char) (n : String) (w₂ : List Char) (operator : AttributeOperator)
    (w₃ text w₄ : List Char) : List Char :=
  '[' :: (w₁ ++ (nameText n ++ (w₂ ++ (operator.text ++ (w₃ ++ (text ++ (w₄ ++ [']'])))))))

theorem simpleText_present {n : String} {w w' : List Char} (hw : Blanks w) (hn : IsName n)
    (hw' : Blanks w') : SimpleText (presentText w n w') (.attribute { name := n }) := by
  refine ⟨⟨'[', _, rfl, Or.inr (Or.inr (Or.inl rfl))⟩, fun rest _ => ?_⟩
  have hends : EndsName (w' ++ ']' :: rest) := endsName_blanks hw' (by decide) (by decide)
  have hstart := startsName_nameText hn (w' ++ ']' :: rest)
  have hread : takeAttribute (w ++ (nameText n ++ (w' ++ ']' :: rest))) =
      .ok ({ name := n }, rest) := by
    rw [takeAttribute, skipSpace_append hw, skipSpace_of_startsName hstart,
      takeAttributeName_nameText hn hends]
    show (takeOperator (skipSpace (w' ++ ']' :: rest)) >>= _) = _
    rw [skipSpace_append hw', skipSpace_cons (by decide)]
    rfl
  have happend : presentText w n w' ++ rest =
      '[' :: (w ++ (nameText n ++ (w' ++ ']' :: rest))) := by
    simp [presentText]
  rw [happend, takeSimple, hread]
  rfl

theorem simpleText_agrees {n value : String} {operator : AttributeOperator}
    {w₁ w₂ w₃ w₄ text : List Char} (h₁ : Blanks w₁) (hn : IsName n) (h₂ : Blanks w₂)
    (h₃ : Blanks w₃) (hv : ValueText text value) (h₄ : Blanks w₄) :
    SimpleText (agreesText w₁ n w₂ operator w₃ text w₄)
      (.attribute { name := n, agreement? := some (operator, value) }) := by
  refine ⟨⟨'[', _, rfl, Or.inr (Or.inr (Or.inl rfl))⟩, fun rest _ => ?_⟩
  obtain ⟨o, os, ho, hospace, honame, hoback⟩ := operator.head_text
  obtain ⟨v, vs, hvhead, hvspace⟩ := hv.head
  -- Neither the name nor the value reaches beyond its own end, and no blank is lost to them.
  have hends : ∀ r, EndsName (w₂ ++ (operator.text ++ r)) := by
    intro r
    rw [ho]
    exact endsName_blanks h₂ honame hoback
  have hends' : EndsName (w₄ ++ ']' :: rest) := endsName_blanks h₄ (by decide) (by decide)
  have hskip₂ : ∀ r, skipSpace (w₂ ++ (operator.text ++ r)) = operator.text ++ r := by
    intro r
    rw [skipSpace_append h₂, ho, List.cons_append, skipSpace_cons hospace]
  have hskip₃ : ∀ r, skipSpace (w₃ ++ (text ++ r)) = text ++ r := by
    intro r
    rw [skipSpace_append h₃, hvhead, List.cons_append, skipSpace_cons hvspace]
  -- The name, the operator, the value and the bracket, each behind its blanks.
  have hread : takeAttribute (w₁ ++ (nameText n ++ (w₂ ++ (operator.text ++ (w₃ ++ (text ++
      (w₄ ++ ']' :: rest))))))) =
        .ok ({ name := n, agreement? := some (operator, value) }, rest) := by
    rw [takeAttribute, skipSpace_append h₁, skipSpace_of_startsName (startsName_nameText hn _),
      takeAttributeName_nameText hn (hends _)]
    show (takeOperator (skipSpace (w₂ ++ (operator.text ++ _))) >>= _) = _
    rw [hskip₂, takeOperator_text]
    show (takeValue (skipSpace (w₃ ++ (text ++ _))) >>= _) = _
    rw [hskip₃, hv.reads _ hends']
    show (takeAttributeEnd (skipSpace (w₄ ++ ']' :: rest)) >>= _) = _
    rw [skipSpace_append h₄, skipSpace_cons (by decide)]
    rfl
  have happend : agreesText w₁ n w₂ operator w₃ text w₄ ++ rest =
      '[' :: (w₁ ++ (nameText n ++ (w₂ ++ (operator.text ++ (w₃ ++ (text ++
        (w₄ ++ ']' :: rest))))))) := by
    simp [agreesText]
  rw [happend, takeSimple, hread]
  rfl

/-! ## Pseudo-classes -/

/-- A pseudo-class as it is written behind its colon. -/
def PseudoClass.text : PseudoClass → List Char
  | .root => "root".toList
  | .firstChild => "first-child".toList
  | .lastChild => "last-child".toList
  | .onlyChild => "only-child".toList
  | .empty => "empty".toList
  | .nthChild p =>
      "nth-child(".toList ++
        (decimalText p.step.toInt ++ 'n' :: signedText p.offset.toInt ++ [')'])

theorem PseudoClass.text_nthChild (p : AnPlusB) :
    (PseudoClass.nthChild p).text = "nth-child(".toList ++
      (decimalText p.step.toInt ++ 'n' :: signedText p.offset.toInt ++ [')']) :=
  rfl

theorem pieces_self {s : List Char} (hs : ∀ c ∈ s, isNameChar c = true) : Pieces s s := by
  induction s with
  | nil => exact Pieces.nil
  | cons c cs ih =>
      have hc := hs c List.mem_cons_self
      exact Pieces.cons (Piece.plain hc) (ih fun d hd => hs d (List.mem_cons_of_mem _ hd))

theorem takePseudo_of_startsName {s : List Char} (hstart : startsName s = true) :
    takePseudo s =
      match (takeName s).2 with
      | '(' :: cs =>
        match cs.dropWhile (· != ')') with
        | [] => failAt [] .argumentEnd
        | _ :: rest =>
          (argumentPseudo (lower (String.ofList (takeName s).1)) (cs.takeWhile (· != ')')) rest).map
            (·, rest)
      | rest => (plainPseudo (lower (String.ofList (takeName s).1))).map (·, rest) := by
  have hcolon : ¬ (s.head? == some ':') = true := by
    intro hhead
    obtain ⟨cs, rfl⟩ := List.head?_eq_some_iff.mp (beq_iff_eq.mp hhead)
    exact ne_of_startsName hstart (by decide) (by decide) (by decide) rfl
  unfold takePseudo
  rw [if_neg hcolon, if_pos hstart]
  rfl

/-- Without a parenthesis behind it, the name is looked up in lower case. -/
theorem takePseudo_of_plain {s : List Char} (hstart : startsName s = true)
    (hparen : (takeName s).2.head? ≠ some '(') :
    takePseudo s =
      (plainPseudo (lower (String.ofList (takeName s).1))).map (·, (takeName s).2) := by
  rw [takePseudo_of_startsName hstart]
  split
  · rename_i hrest
    rw [hrest] at hparen
    exact absurd rfl hparen
  · rfl

/-- The argument of a pseudo-class, up to the parenthesis that closes it. -/
def takeArgument (s : List Char) : Except Fault (List Char × List Char) :=
  match s.dropWhile (· != ')') with
  | [] => failAt [] .argumentEnd
  | _ :: rest => .ok (s.takeWhile (· != ')'), rest)

theorem takeArgument_append_cons {argument : List Char} (hclose : ')' ∉ argument)
    (rest : List Char) : takeArgument (argument ++ ')' :: rest) = .ok (argument, rest) := by
  obtain ⟨htake, hdrop⟩ := cutBefore_append_cons hclose rest
  rw [takeArgument, hdrop, htake]

/-- Behind a name and a parenthesis the argument is read first, and then what it says. -/
theorem takePseudo_of_parenthesis {s cs : List Char} (hstart : startsName s = true)
    (hname : (takeName s).2 = '(' :: cs) :
    takePseudo s = takeArgument cs >>= fun argument =>
      (argumentPseudo (lower (String.ofList (takeName s).1)) argument.1 argument.2).map
        (·, argument.2) := by
  rw [takePseudo_of_startsName hstart, hname, takeArgument]
  cases hdrop : cs.dropWhile (· != ')') with
  | nil =>
      simp only [hdrop]
      rfl
  | cons c rest =>
      simp only [hdrop]
      rfl

/-- The argument is what stands before the first closing parenthesis. -/
theorem takePseudo_of_argument {s argument rest : List Char} (hstart : startsName s = true)
    (hname : (takeName s).2 = '(' :: (argument ++ ')' :: rest)) (hclose : ')' ∉ argument) :
    takePseudo s =
      (argumentPseudo (lower (String.ofList (takeName s).1)) argument rest).map (·, rest) := by
  rw [takePseudo_of_parenthesis hstart hname, takeArgument_append_cons hclose]
  rfl

/-- What a pseudo-class is read from: a name in front of an argument, or a name alone. -/
inductive PseudoRead (s : List Char) (condition : PseudoClass) : List Char → Prop
  | argument {argument rest : List Char}
      (hname : (takeName s).2 = '(' :: (argument ++ ')' :: rest)) (hclose : ')' ∉ argument)
      (h : argumentPseudo (lower (String.ofList (takeName s).1)) argument rest = .ok condition) :
      PseudoRead s condition rest
  | plain (hparen : (takeName s).2.head? ≠ some '(')
      (h : plainPseudo (lower (String.ofList (takeName s).1)) = .ok condition) :
      PseudoRead s condition (takeName s).2

theorem startsName_of_takePseudo {s : List Char} {condition : PseudoClass} {rest : List Char}
    (h : takePseudo s = .ok (condition, rest)) : startsName s = true := by
  unfold takePseudo at h
  split at h
  · cases h
  · split at h
    · assumption
    · cases h

theorem pseudoRead_of_takePseudo {s rest : List Char} {condition : PseudoClass}
    (h : takePseudo s = .ok (condition, rest)) : PseudoRead s condition rest := by
  have hstart := startsName_of_takePseudo h
  by_cases hparen : (takeName s).2.head? = some '('
  · obtain ⟨cs, hcs⟩ := List.head?_eq_some_iff.mp hparen
    have hcut := cutBefore_iff.mp ⟨(rfl : cs.takeWhile (· != ')') = _), rfl⟩
    obtain ⟨hsplit, hclose, hdrop | ⟨rest', hdrop⟩⟩ := hcut
    · -- Nothing closes the argument.
      rw [takePseudo_of_parenthesis hstart hcs, takeArgument, hdrop] at h
      cases h
    · rw [hsplit, hdrop] at hcs
      rw [takePseudo_of_argument hstart hcs hclose] at h
      obtain ⟨condition', hpseudo, hpair⟩ := map_eq_ok h
      cases hpair
      exact PseudoRead.argument hcs hclose hpseudo
  · rw [takePseudo_of_plain hstart hparen] at h
    obtain ⟨condition', hpseudo, hpair⟩ := map_eq_ok h
    cases hpair
    exact PseudoRead.plain hparen hpseudo

/-- What follows an argument has no part in what it comes to. -/
theorem argumentPseudo_ok {name : String} {argument rest : List Char} {condition : PseudoClass}
    (h : argumentPseudo name argument rest = .ok condition) (rest' : List Char) :
    argumentPseudo name argument rest' = .ok condition := by
  unfold argumentPseudo at h ⊢
  split at h
  · rename_i hname
    rw [if_pos hname]
    split at h
    · exact h
    · cases h
  · cases h

/-- A plain name is looked up as it stands, in lower case. -/
theorem takePseudo_plain (n : String) {condition : PseudoClass}
    (hstart : n.toList.head?.any isNameStart = true) (hall : n.toList.all isNameChar = true)
    (hname : PseudoClass.ofName? (lower n) = some condition) {rest : List Char}
    (hrest : EndsSimple rest) : takePseudo (n.toList ++ rest) = .ok (condition, rest) := by
  have hread : takeName (n.toList ++ rest) = (n.toList, rest) := by
    rw [takeName_pieces (pieces_self (List.all_eq_true.mp hall)),
      takeName_of_endsName (endsName_of_endsSimple hrest), List.append_nil]
  have hbegins : startsName (n.toList ++ rest) = true := by
    cases hchars : n.toList with
    | nil =>
        rw [hchars] at hstart
        cases hstart
    | cons c cs =>
        rw [hchars] at hstart
        exact (beginsName_of_isNameStart hstart (cs ++ rest)).1
  have hparen : (takeName (n.toList ++ rest)).2.head? ≠ some '(' := by
    rw [hread]
    exact fun h => (hrest '(' h).2.2 rfl
  rw [takePseudo_of_plain hbegins hparen, hread, String.ofList_toList, plainPseudo, hname]
  rfl

/-- What `:nth-child` comes to is up to its argument. -/
theorem takePseudo_argument {argument : List Char} (hclose : ')' ∉ argument) (rest : List Char) :
    takePseudo ("nth-child(".toList ++ (argument ++ ')' :: rest)) =
      (argumentPseudo "nth-child" argument rest).map (·, rest) := by
  have hread : takeName ("nth-child(".toList ++ (argument ++ ')' :: rest)) =
      ("nth-child".toList, '(' :: (argument ++ ')' :: rest)) := by
    show takeName ("nth-child".toList ++ '(' :: (argument ++ ')' :: rest)) = _
    have hends : EndsName ('(' :: (argument ++ ')' :: rest)) :=
      endsName_cons (by decide) (by decide) _
    have hplain : ∀ c ∈ "nth-child".toList, isNameChar c = true :=
      List.all_eq_true.mp (by decide)
    rw [takeName_pieces (pieces_self hplain), takeName_of_endsName hends, List.append_nil]
  have hstart : startsName ("nth-child(".toList ++ (argument ++ ')' :: rest)) = true :=
    (beginsName_of_isNameStart (c := 'n') (by decide) _).1
  rw [takePseudo_of_argument hstart (congrArg Prod.snd hread) hclose, hread,
    show lower (String.ofList "nth-child".toList) = "nth-child" by decide]

theorem takePseudo_nthChild {argument : List Char} {p : AnPlusB} (hclose : ')' ∉ argument)
    (hp : AnPlusB.ofChars? argument = some p) (rest : List Char) :
    takePseudo ("nth-child(".toList ++ (argument ++ ')' :: rest)) = .ok (.nthChild p, rest) := by
  rw [takePseudo_argument hclose, argumentPseudo, if_pos (by decide), hp]
  rfl

/-! ## Positions -/

/-- What numbers in an argument are made of. -/
def IsNumeric (c : Char) : Prop :=
  c.isDigit = true ∨ c = '-' ∨ c = '+'

theorem IsNumeric.bounds {c : Char} (h : IsNumeric c) : 43 ≤ c.toNat ∧ c.toNat ≤ 57 := by
  rcases h with h | rfl | rfl
  · have hdigit : 48 ≤ c.toNat ∧ c.toNat ≤ 57 := by
      simpa [Char.isDigit, UInt32.le_iff_toNat_le] using h
    omega
  all_goals decide

/-- A character outside their range is none of them. -/
theorem IsNumeric.ne {c d : Char} (h : IsNumeric c) (hd : d.toNat < 43 ∨ 57 < d.toNat) :
    c ≠ d := by
  rintro rfl
  have := h.bounds
  omega

theorem IsNumeric.isSpace {c : Char} (h : IsNumeric c) : isSpace c = false := by
  have hne := fun d hd => IsNumeric.ne (d := d) h hd
  simp [Text.isSpace, hne ' ' (by decide), hne '\t' (by decide), hne '\n' (by decide),
    hne '\r' (by decide), hne '\x0c' (by decide)]

theorem IsNumeric.toLower {c : Char} (h : IsNumeric c) : c.toLower = c := by
  have hbounds := h.bounds
  have hupper : ¬ ('A'.val ≤ c.val ∧ c.val ≤ 'Z'.val) := by
    rw [UInt32.le_iff_toNat_le, UInt32.le_iff_toNat_le]
    show ¬ (65 ≤ c.toNat ∧ c.toNat ≤ 90)
    omega
  exact toLower_of_not_upper hupper

theorem isNumeric_of_mem_decimalText {n : Int} {c : Char} (h : c ∈ decimalText n) : IsNumeric c :=
  (mem_decimalText h).imp_right Or.inl

theorem isNumeric_of_mem_signedText {n : Int} {c : Char} (h : c ∈ signedText n) : IsNumeric c :=
  mem_signedText h

/-- Blanks and letter case play no part in an argument of numbers and the letter `n`. -/
theorem normal_of_numeric {argument : List Char} (h : ∀ c ∈ argument, IsNumeric c ∨ c = 'n') :
    (argument.filter (!isSpace ·)).map Char.toLower = argument := by
  induction argument with
  | nil => rfl
  | cons c cs ih =>
      have ih := ih fun d hd => h d (List.mem_cons_of_mem _ hd)
      have hc : isSpace c = false ∧ c.toLower = c := by
        rcases h c List.mem_cons_self with hc | rfl
        · exact ⟨hc.isSpace, hc.toLower⟩
        · decide
      rw [List.filter_cons_of_pos (by simp [hc.1]), List.map_cons, hc.2, ih]

theorem ne_word_of_numeric {argument word : List Char} {d : Char}
    (h : ∀ c ∈ argument, IsNumeric c ∨ c = 'n') (hd : 57 < d.toNat) (hn : d ≠ 'n')
    (hmem : d ∈ word) : argument ≠ word := by
  rintro rfl
  rcases h d hmem with h | h
  · exact h.ne (Or.inr hd) rfl
  · exact hn h

/-- Such an argument is neither of the two words, so it is read by the letter `n` in it. -/
theorem ofChars?_of_numeric {argument : List Char} (h : ∀ c ∈ argument, IsNumeric c ∨ c = 'n') :
    AnPlusB.ofChars? argument =
      if argument.contains 'n' then do
        let step ← AnPlusB.stepOf? (argument.takeWhile (· != 'n'))
        let offset ← AnPlusB.offsetOf? ((argument.dropWhile (· != 'n')).drop 1)
        pure ⟨step, offset⟩
      else (integer? argument).map (⟨0, ·⟩) := by
  have hodd : argument ≠ "odd".toList :=
    ne_word_of_numeric (d := 'd') h (by decide) (by decide) (by decide)
  have heven : argument ≠ "even".toList :=
    ne_word_of_numeric (d := 'v') h (by decide) (by decide) (by decide)
  rw [AnPlusB.ofChars?, normal_of_numeric h, if_neg (by simpa using hodd),
    if_neg (by simpa using heven)]

/-- A bare number selects one position. -/
theorem ofChars?_decimalText (n : Int) :
    AnPlusB.ofChars? (decimalText n) = (word? n).map fun offset => { step := 0, offset } := by
  have hnumeric : ∀ c ∈ decimalText n, IsNumeric c := fun c hc => isNumeric_of_mem_decimalText hc
  have hn : 'n' ∉ decimalText n := fun h => (hnumeric 'n' h).ne (Or.inr (by decide)) rfl
  rw [ofChars?_of_numeric fun c hc => Or.inl (hnumeric c hc), if_neg (by simpa using hn),
    integer?_decimalText]

theorem ofChars?_toDigits (n : Nat) :
    AnPlusB.ofChars? (Nat.toDigits 10 n) = (word? n).map fun offset => { step := 0, offset } :=
  ofChars?_decimalText n

theorem stepOf?_decimalText (w : Int64) : AnPlusB.stepOf? (decimalText w.toInt) = some w := by
  have hread := integer?_decimalText w.toInt
  rw [word?_toInt] at hread
  unfold AnPlusB.stepOf?
  split
  -- A sign alone, or nothing, is no numeral.
  · rename_i h
    rw [h] at hread
    cases hread
  · rename_i h
    rw [h] at hread
    cases hread
  · rename_i h
    rw [h] at hread
    cases hread
  · exact hread

theorem offsetOf?_signedText (w : Int64) : AnPlusB.offsetOf? (signedText w.toInt) = some w := by
  have hread := integer?_signedText w.toInt
  rw [word?_toInt] at hread
  cases h : w.toInt with
  | ofNat n =>
      rw [h] at hread
      exact hread
  | negSucc n =>
      rw [h] at hread
      exact hread

/-- What stands before the `n` is the step, and what stands behind it the offset. -/
theorem ofChars?_around_n {step offset : List Char} (hstep : ∀ c ∈ step, IsNumeric c)
    (hoffset : ∀ c ∈ offset, IsNumeric c) :
    AnPlusB.ofChars? (step ++ 'n' :: offset) = (do
      let step ← AnPlusB.stepOf? step
      let offset ← AnPlusB.offsetOf? offset
      pure ⟨step, offset⟩) := by
  have hn : 'n' ∉ step := fun hmem => (hstep 'n' hmem).ne (Or.inr (by decide)) rfl
  have hall : ∀ c ∈ step ++ 'n' :: offset, IsNumeric c ∨ c = 'n' := by
    intro c hc
    rcases List.mem_append.mp hc with hc | hc
    · exact Or.inl (hstep c hc)
    · rcases List.mem_cons.mp hc with hc | hc
      · exact Or.inr hc
      · exact Or.inl (hoffset c hc)
  obtain ⟨hbefore, hafter⟩ := cutBefore_append_cons hn offset
  rw [ofChars?_of_numeric hall, if_pos (by simp), hbefore, hafter, List.drop_one, List.tail_cons]

/-- A progression reads back from its step, an `n` and its signed offset. -/
theorem ofChars?_progression (p : AnPlusB) :
    AnPlusB.ofChars? (decimalText p.step.toInt ++ 'n' :: signedText p.offset.toInt) = some p := by
  rw [ofChars?_around_n (fun c hc => isNumeric_of_mem_decimalText hc)
    (fun c hc => isNumeric_of_mem_signedText hc), stepOf?_decimalText, offsetOf?_signedText]
  rfl

/-! ## Pseudo-classes as conditions -/

theorem simpleText_of_takePseudo {text : List Char} {condition : PseudoClass}
    (h : ∀ rest, EndsSimple rest → takePseudo (text ++ rest) = .ok (condition, rest)) :
    SimpleText (':' :: text) (.pseudo condition) := by
  refine ⟨⟨':', _, rfl, Or.inr (Or.inr (Or.inr rfl))⟩, fun rest hrest => ?_⟩
  rw [List.cons_append, takeSimple, h rest hrest]
  rfl

theorem simpleText_nthChild {argument : List Char} {p : AnPlusB} (hclose : ')' ∉ argument)
    (hp : AnPlusB.ofChars? argument = some p) :
    SimpleText (":nth-child(".toList ++ (argument ++ [')'])) (.pseudo (.nthChild p)) := by
  have hmark : ":nth-child(".toList = ':' :: "nth-child(".toList := by decide
  rw [hmark, List.cons_append]
  apply simpleText_of_takePseudo
  intro rest _
  rw [List.append_assoc, List.append_assoc]
  exact takePseudo_nthChild hclose hp rest

/-- An argument that denotes no positions cannot be read. -/
theorem faultyText_nthChild {argument : List Char} (hclose : ')' ∉ argument)
    (hnone : AnPlusB.ofChars? argument = none) :
    FaultyText (":nth-child(".toList ++ (argument ++ [')'])) (.expected 0 .anPlusB) := by
  have hread := takePseudo_argument hclose []
  rw [argumentPseudo, if_pos (by decide), hnone] at hread
  have hmark : ":nth-child(".toList = ':' :: "nth-child(".toList := by decide
  rw [hmark, List.cons_append]
  refine ⟨⟨':', _, rfl, Or.inr (Or.inr (Or.inr rfl))⟩, ?_⟩
  rw [takeSimple, hread]
  rfl

/-- Every pseudo-class is read back from its text. -/
theorem simpleText_pseudo (condition : PseudoClass) :
    SimpleText (':' :: condition.text) (.pseudo condition) := by
  apply simpleText_of_takePseudo
  intro rest hrest
  cases condition with
  | root => exact takePseudo_plain "root" (by decide) (by decide) (by decide) hrest
  | firstChild => exact takePseudo_plain "first-child" (by decide) (by decide) (by decide) hrest
  | lastChild => exact takePseudo_plain "last-child" (by decide) (by decide) (by decide) hrest
  | onlyChild => exact takePseudo_plain "only-child" (by decide) (by decide) (by decide) hrest
  | empty => exact takePseudo_plain "empty" (by decide) (by decide) (by decide) hrest
  | nthChild p =>
      have hclose : ')' ∉ decimalText p.step.toInt ++ 'n' :: signedText p.offset.toInt := by
        intro hmem
        rcases List.mem_append.mp hmem with h | h
        · exact (isNumeric_of_mem_decimalText h).ne (Or.inl (by decide)) rfl
        · rcases List.mem_cons.mp h with h | h
          · exact absurd h (by decide)
          · exact (isNumeric_of_mem_signedText h).ne (Or.inl (by decide)) rfl
      have hread := takePseudo_nthChild hclose (ofChars?_progression p) rest
      rw [PseudoClass.text_nthChild, List.append_assoc, List.append_assoc]
      exact hread

/-! ## One position, as the search writes it -/

theorem position_unclosed (k : Nat) : ')' ∉ Nat.toDigits 10 k := by
  intro hmem
  have hdigit := Nat.isDigit_of_mem_toDigits (by decide) (by decide) hmem
  exact absurd hdigit (by decide)

theorem simpleText_position {k : Nat} {offset : Int64} (hk : word? k = some offset) :
    SimpleText (":nth-child(".toList ++ (Nat.toDigits 10 k ++ [')']))
      (.pseudo (.nthChild { step := 0, offset })) := by
  apply simpleText_nthChild (position_unclosed k)
  rw [ofChars?_toDigits, hk]
  rfl

/-- A position past all words cannot be read. -/
theorem faultyText_position {k : Nat} (hk : word? k = none) :
    FaultyText (":nth-child(".toList ++ (Nat.toDigits 10 k ++ [')'])) (.expected 0 .anPlusB) := by
  apply faultyText_nthChild (position_unclosed k)
  rw [ofChars?_toDigits, hk]
  rfl

end UniqueSelector
