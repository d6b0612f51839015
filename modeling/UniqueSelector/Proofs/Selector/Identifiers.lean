/-
  UniqueSelector.Proofs.Selector.Identifiers

  Any text can be written as an identifier, NUL apart, and what is written is
  read back as that text in each place where an identifier may stand.

    * `escape_eq_error_iff` — what the error says of a text that holds NUL.
    * `ReadsBack` — the places: a name in front of what ends it, a selector of
      one condition, and a string between quotes of either kind.
    * `escape_readsBack` — both, for every value that can be written.

  A reader of names and a reader of strings take the written form for different
  reasons; that it is a run of pieces (`pieces_escapeChars`) serves them both.
-/

import UniqueSelector.Proofs.Selector.Conditions

namespace UniqueSelector

open Text Identifier Selector

/-! ## Where NUL stands -/

/-- The first NUL of a text is the character at this position. -/
structure FirstNul (s : List Char) (position : Nat) : Prop where
  here : s[position]? = some '\x00'
  not_before : '\x00' ∉ s.take position

theorem findIdx?_nul_iff (s : List Char) (position : Nat) :
    s.findIdx? (· == '\x00') = some position ↔ FirstNul s position := by
  rw [List.findIdx?_eq_some_iff_getElem]
  constructor
  · rintro ⟨hlt, hhere, hbefore⟩
    refine ⟨by rw [List.getElem?_eq_getElem hlt, eq_of_beq hhere], fun hmem => ?_⟩
    obtain ⟨i, hi, hnul⟩ := List.mem_take_iff_getElem.mp hmem
    exact hbefore i (by omega) (by rw [hnul]; rfl)
  · rintro ⟨hhere, hbefore⟩
    obtain ⟨hlt, hnul⟩ := List.getElem?_eq_some_iff.mp hhere
    refine ⟨hlt, by rw [hnul]; rfl, fun i hi hat => hbefore ?_⟩
    exact List.mem_take_iff_getElem.mpr ⟨i, by omega, eq_of_beq hat⟩

/-- Writing fails on NUL only, and says where the first one stands. -/
theorem escape_eq_error_iff (s : String) (cause : EscapeError) :
    escape s = .error cause ↔ ∃ position, cause = .nul position ∧ FirstNul s.toList position := by
  rw [escape]
  cases hnul : s.toList.findIdx? (· == '\x00') with
  | none =>
      constructor
      · rintro ⟨⟩
      · rintro ⟨position, -, hfirst⟩
        rw [(findIdx?_nul_iff _ _).mpr hfirst] at hnul
        cases hnul
  | some position =>
      have hfirst := (findIdx?_nul_iff _ _).mp hnul
      constructor
      · rintro ⟨⟩
        exact ⟨position, rfl, hfirst⟩
      · rintro ⟨position', rfl, hfirst'⟩
        rw [(findIdx?_nul_iff _ _).mpr hfirst'] at hnul
        rw [Option.some.inj hnul]

/-! ## Where identifiers stand -/

/-- In every place where an identifier may stand `e` is read as the text `s`. The empty text is
    no selector, so it counts as a name and as a string only. -/
structure ReadsBack (e s : String) : Prop where
  name : ∀ rest, EndsName rest → takeName (e.toList ++ rest) = (s.toList, rest)
  typeName : s ≠ "" → Selector.ofString e = .ok { subject := [.typeName s] }
  className : s ≠ "" → Selector.ofString ("." ++ e) = .ok { subject := [.className s] }
  idName : s ≠ "" → Selector.ofString ("#" ++ e) = .ok { subject := [.idName s] }
  quoted : ∀ quote, IsQuote quote → ∀ rest,
    takeQuoted quote (e.toList ++ quote :: rest) = .ok (s.toList, rest)

theorem readsBack_of_escape {s e : String} (h : escape s = .ok e) : ReadsBack e s := by
  have hnul : '\x00' ∉ s.toList := (escape_isOk_iff s).mp ⟨e, h⟩
  have htext : e.toList = nameText s := nameText_of_escape h
  have hname : s ≠ "" → IsName s := fun hne => ⟨hne, hnul⟩
  have hmarked : ∀ (mark : String) {x : SimpleSelector},
      SimpleText (mark.toList ++ nameText s) x →
        Selector.ofString (mark ++ e) = .ok { subject := [x] } := by
    intro mark x hx
    refine ofString_compound (CompoundText.plain ?_ (by simp))
    rw [String.toList_append, htext]
    exact SimplesText.single hx
  exact
    { name := fun rest hrest => by
        rw [htext]
        exact takeName_escapeChars hnul hrest
      typeName := fun hne => by
        have hreads := CompoundText.typed (hname hne) SimplesText.nil
        rw [List.append_nil, ← htext] at hreads
        exact ofString_compound hreads
      className := fun hne => hmarked "." (simpleText_className (hname hne))
      idName := fun hne => hmarked "#" (simpleText_idName (hname hne))
      quoted := fun quote hquote rest => by
        rw [htext]
        exact takeQuoted_pieces hquote (pieces_escapeChars hnul) rest }

/-- A value is written as an identifier unless its text holds NUL, whose first position the
    error gives, and what is written is read back as the text in every place. -/
theorem escape_readsBack (v : Value) :
    ((∃ cause, escape v.toText = .error cause) ↔ '\x00' ∈ v.toText.toList) ∧
    (∀ cause, escape v.toText = .error cause →
      ∃ position, cause = .nul position ∧ FirstNul v.toText.toList position) ∧
    ∀ e, escape v.toText = .ok e → ReadsBack e v.toText := by
  refine ⟨⟨?_, ?_⟩, fun cause => (escape_eq_error_iff _ cause).mp, fun e => readsBack_of_escape⟩
  · rintro ⟨cause, hcause⟩
    obtain ⟨position, -, hfirst⟩ := (escape_eq_error_iff _ cause).mp hcause
    exact List.mem_of_getElem? hfirst.here
  · intro hnul
    cases he : escape v.toText with
    | error cause => exact ⟨cause, rfl⟩
    | ok e => exact absurd hnul ((escape_isOk_iff _).mp ⟨e, he⟩)

theorem escape_readsBack_hyphen_digit :
    escape (Value.text "-1").toText = .ok "-\\31 " ∧
      takeName "-\\31 > b".toList = ("-1".toList, "> b".toList) ∧
      Selector.ofString ".-\\31 " = .ok { subject := [.className "-1"] } ∧
      takeQuoted '"' "-\\31 \"]".toList = .ok ("-1".toList, "]".toList) := by
  have he : escape (Value.text "-1").toText = .ok "-\\31 " := rfl
  obtain ⟨-, -, hreads⟩ := escape_readsBack (.text "-1")
  have hback := hreads _ he
  have hends : EndsName "> b".toList := endsName_cons (by decide) (by decide) _
  exact ⟨he, hback.name _ hends, hback.className (by decide),
    hback.quoted '"' (Or.inl rfl) "]".toList⟩

end UniqueSelector
