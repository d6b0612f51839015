/-
  UniqueSelector.Proofs.Selector.Composition

  Reading composes. Two texts that are read as selectors, with a combinator
  between them, are read as the selector in which the second one continues the
  first: the subject is that of the second, and the chain goes on to the subject
  of the first and along its chain.

    * `Combinator.joint` — the combinator between the two texts, with a blank in
      front of it that an escape at the end of the first may take.
    * `takeChain_continues` — the first text is read as before, up to the blanks
      that are left of it.
    * `takeChain_compose` — a chain is read on top of any other.
    * `ofString_compose` — the two together.

  The first text must not end in a backslash that escapes nothing, or the blank
  would be escaped.
-/

import UniqueSelector.Proofs.Selector.Continuation

namespace UniqueSelector

open Text Identifier Selector

/-! ## Combinators and the blanks around them -/

theorem Blanks.append {w w' : List Char} (hw : Blanks w) (hw' : Blanks w') :
    Blanks (w ++ w') := by
  intro c hc
  exact (List.mem_append.mp hc).elim (hw c) (hw' c)

/-- Blanks may be added on both sides of a combinator. -/
theorem Blanks.padded {w gap w' : List Char} {k : Combinator} (hw : Blanks w)
    (h : CombinatorText gap k) (hw' : Blanks w') : CombinatorText (w ++ (gap ++ w')) k := by
  cases h with
  | descendant hgap hne =>
      exact CombinatorText.descendant (hw.append (hgap.append hw')) (by simp [hne])
  | child h₁ h₂ =>
      have := CombinatorText.child (hw.append h₁) (h₂.append hw')
      simpa using this
  | nextSibling h₁ h₂ =>
      have := CombinatorText.nextSibling (hw.append h₁) (h₂.append hw')
      simpa using this
  | subsequentSibling h₁ h₂ =>
      have := CombinatorText.subsequentSibling (hw.append h₁) (h₂.append hw')
      simpa using this

theorem exists_blanks (s : List Char) : ∃ w, Blanks w ∧ s = w ++ skipSpace s :=
  ⟨s.takeWhile isSpace, fun _ hc => List.mem_takeWhile_imp hc,
    (List.takeWhile_append_dropWhile ..).symm⟩

/-- A combinator that is read stands there, with its blanks. -/
theorem exists_combinatorText {s rest : List Char} {k : Combinator}
    (h : takeCombinator s = .ok (some (k, rest))) :
    ∃ gap, s = gap ++ rest ∧ CombinatorText gap k := by
  obtain ⟨w, hw, hs⟩ := exists_blanks s
  have hmark : ∀ {d : Char} {cs : List Char}, skipSpace s = d :: cs →
      ∃ w', Blanks w' ∧ s = (w ++ d :: w') ++ skipSpace cs := by
    intro d cs hcs
    obtain ⟨w', hw', hcs'⟩ := exists_blanks cs
    refine ⟨w', hw', ?_⟩
    rw [hs, hcs, List.append_assoc, List.cons_append, ← hcs']
  unfold takeCombinator at h
  split at h
  · cases h
  · rename_i cs hcs
    cases h
    obtain ⟨w', hw', hcut⟩ := hmark hcs
    exact ⟨_, hcut, CombinatorText.child hw hw'⟩
  · rename_i cs hcs
    cases h
    obtain ⟨w', hw', hcut⟩ := hmark hcs
    exact ⟨_, hcut, CombinatorText.nextSibling hw hw'⟩
  · rename_i cs hcs
    cases h
    obtain ⟨w', hw', hcut⟩ := hmark hcs
    exact ⟨_, hcut, CombinatorText.subsequentSibling hw hw'⟩
  · split at h
    · rename_i hspace
      cases h
      refine ⟨w, hs, CombinatorText.descendant hw ?_⟩
      -- There is a blank in front, so the blanks that are skipped are not none.
      rintro rfl
      cases s with
      | nil => cases hspace
      | cons c cs =>
          have hc : isSpace c = true := by simpa using hspace
          rw [List.nil_append, skipSpace, List.dropWhile_cons_of_pos hc] at hs
          have hlen := length_skipSpace_le cs
          rw [skipSpace, ← hs, List.length_cons] at hlen
          omega
    · cases h

theorem CombinatorText.ne_backslash {gap : List Char} {k : Combinator} (h : CombinatorText gap k) :
    ∀ c ∈ gap, c ≠ '\\' := by
  have hmark : ∀ {w w' : List Char} {d : Char}, Blanks w → Blanks w' → d ≠ '\\' →
      ∀ c ∈ w ++ d :: w', c ≠ '\\' := by
    intro w w' d hw hw' hd c hc
    rcases List.mem_append.mp hc with hc | hc
    · exact ne_backslash_of_isSpace (hw c hc)
    · rcases List.mem_cons.mp hc with rfl | hc
      · exact hd
      · exact ne_backslash_of_isSpace (hw' c hc)
  cases h with
  | descendant hw hne => exact fun c hc => ne_backslash_of_isSpace (hw c hc)
  | child hw hw' => exact hmark hw hw' (by decide)
  | nextSibling hw hw' => exact hmark hw hw' (by decide)
  | subsequentSibling hw hw' => exact hmark hw hw' (by decide)

/-! ## The first text -/

section First

variable {more s left : List Char}

/-- A combinator in front of a compound is read the same on both texts. -/
theorem takeCombinator_continues {k : Combinator} {rest : List Char} (h : LeftWith more s left)
    (hread : takeCombinator s = .ok (some (k, rest))) (hrest : ¬ EndsCompound rest) :
    ∃ left', LeftWith more rest left' ∧ takeCombinator left = .ok (some (k, left')) := by
  obtain ⟨gap, rfl, hgap⟩ := exists_combinatorText hread
  have hne : gap ++ rest ≠ [] := by
    intro hnil
    rw [(List.append_eq_nil_iff.mp hnil).2] at hrest
    exact hrest endsCompound_nil
  obtain ⟨rfl, hleft⟩ := h.append hgap.ne_backslash hne
  exact ⟨_, hleft, takeCombinator_of_combinatorText hgap (not_endsCompound_append hrest _)⟩

theorem blanks_of_takeCombinator_none (h : takeCombinator s = .ok none) : Blanks s := by
  obtain ⟨w, hw, hs⟩ := exists_blanks s
  unfold takeCombinator at h
  split at h
  · rename_i hskip
    rw [hskip, List.append_nil] at hs
    rwa [hs]
  · cases h
  · cases h
  · cases h
  · split at h <;> cases h

/-- The chain of the first text is read as before, up to the blanks at its end. -/
theorem takeChain_continues (hmore : EndsCompound more) {sofar x : Selector}
    (h : LeftWith more s left) (hread : takeChain sofar s = .ok x) :
    ∃ w left', Blanks w ∧ LeftWith more w left' ∧ takeChain sofar left = takeChain x left' := by
  fun_induction takeChain sofar s generalizing left with
  | case1 => cases hread
  | case2 sofar s hnone =>
      cases hread
      exact ⟨s, left, blanks_of_takeCombinator_none hnone, h, rfl⟩
  | case3 => cases hread
  | case4 sofar s k rest hcombinator c rest' hcompound ih =>
      -- One combinator and one compound on both texts, and the rests stay related.
      have hbegins := not_endsCompound_of_takeCompound hcompound
      obtain ⟨left₁, hleft₁, hcombinator'⟩ := takeCombinator_continues h hcombinator hbegins
      obtain ⟨left₂, hleft₂, hcompound'⟩ := continues_takeCompound hmore hleft₁ hcompound
      obtain ⟨w, left', hw, hleft', hchain⟩ := ih hleft₂ hread
      refine ⟨w, left', hw, hleft', ?_⟩
      rw [takeChain_some hcombinator', hcompound']
      exact hchain

theorem takeSelector_continues (hmore : EndsCompound more) {x : Selector}
    (h : LeftWith more s left) (hread : takeSelector s = .ok x) :
    ∃ w left', Blanks w ∧ LeftWith more w left' ∧ takeSelector left = takeChain x left' := by
  obtain ⟨⟨c, rest⟩, hcompound, hchain⟩ := bind_eq_ok hread
  obtain ⟨left₁, hleft₁, hcompound'⟩ := continues_takeCompound hmore h hcompound
  obtain ⟨w, left', hw, hleft', hchain'⟩ := takeChain_continues hmore hleft₁ hchain
  refine ⟨w, left', hw, hleft', ?_⟩
  rw [takeSelector, hcompound']
  exact hchain'

end First

/-! ## The second text -/

/-- The selector `t` with its leftmost compound tied to the subject of `s`, and `s` behind it. -/
def Selector.compose (s : Selector) (k : Combinator) (t : Selector) : Selector :=
  { subject := t.subject, chain := t.chain ++ (k, s.subject) :: s.chain }

theorem Selector.compose_extend (s : Selector) (k : Combinator) (t : Selector) (k' : Combinator)
    (c : Compound) : (s.compose k t).extend k' c = s.compose k (t.extend k' c) :=
  rfl

/-- What was read before has no part in how a chain is read. -/
theorem takeChain_compose {sofar y : Selector} {s : List Char} (x : Selector) (k : Combinator)
    (h : takeChain sofar s = .ok y) : takeChain (x.compose k sofar) s = .ok (x.compose k y) := by
  fun_induction takeChain sofar s with
  | case1 => cases h
  | case2 sofar s hnone =>
      cases h
      exact takeChain_none hnone _
  | case3 => cases h
  | case4 sofar s k' rest hcombinator c rest' hcompound ih =>
      rw [takeChain_some hcombinator, hcompound]
      show takeChain ((x.compose k sofar).extend k' c) rest' = _
      rw [Selector.compose_extend]
      exact ih h

/-! ## The two texts together -/

/-- A combinator as it may stand behind any text. Two blanks are needed for the descendant, as an
    escape at the end of the text may take one of them. -/
def Combinator.joint : Combinator → String
  | .descendant => "  "
  | .child => " > "
  | .nextSibling => " + "
  | .subsequentSibling => " ~ "

/-- The combinator is there with the first blank and without it. -/
theorem Combinator.toList_joint (k : Combinator) :
    ∃ mark, k.joint.toList = ' ' :: mark ∧ CombinatorText mark k := by
  cases k with
  | descendant => exact ⟨[' '], rfl, CombinatorText.descendant blanks_space (by decide)⟩
  | child => exact ⟨['>', ' '], rfl, CombinatorText.child blanks_nil blanks_space⟩
  | nextSibling => exact ⟨['+', ' '], rfl, CombinatorText.nextSibling blanks_nil blanks_space⟩
  | subsequentSibling =>
      exact ⟨['~', ' '], rfl, CombinatorText.subsequentSibling blanks_nil blanks_space⟩

/-- Two texts with a combinator between them are read one after the other. -/
theorem ofList_compose {s t : List Char} {x y : Selector} {mark : List Char} {k : Combinator}
    (hs : ofList s = .ok x) (ht : ofList t = .ok y) (hopen : endsOpen s = false)
    (hmark : CombinatorText mark k) : ofList (s ++ ' ' :: (mark ++ t)) = .ok (x.compose k y) := by
  obtain ⟨hne, hfirst⟩ := takeSelector_of_ofList hs
  obtain ⟨-, hsecond⟩ := takeSelector_of_ofList ht
  obtain ⟨lead, hlead, ht'⟩ := exists_blanks t
  obtain ⟨⟨c, rest⟩, hcompound, hchain⟩ := bind_eq_ok hsecond
  have hskip := skipSpace_append_of_ne_nil hne (' ' :: (mark ++ t))
  rw [← endsOpen_skipSpace] at hopen
  -- The first text is read up to the blanks at its end.
  obtain ⟨w, left, hw, hleft, hread⟩ :=
    takeSelector_continues (hmark.endsCompound t) (LeftWith.kept hopen) hfirst
  -- What is left up to the second text is the combinator, with its first blank or without.
  have hgap : ∃ gap, left = gap ++ skipSpace t ∧ CombinatorText gap k := by
    cases hleft with
    | kept _ =>
        refine ⟨w ++ [' '] ++ (mark ++ lead), ?_, (hw.append blanks_space).padded hmark hlead⟩
        nth_rewrite 1 [ht']
        simp
    | taken =>
        refine ⟨[] ++ (mark ++ lead), ?_, blanks_nil.padded hmark hlead⟩
        nth_rewrite 1 [ht']
        simp
  obtain ⟨gap, rfl, hgap⟩ := hgap
  apply ofList_of_takeSelector (by simp [hskip, hne])
  have hcombinator := takeCombinator_of_combinatorText hgap
    (not_endsCompound_of_takeCompound hcompound)
  rw [hskip, hread, takeChain_some hcombinator, hcompound]
  exact takeChain_compose x k hchain

/-- Two texts that are read as selectors, the first of them not ending in an odd number of
    backslashes, are read as one with a combinator between them. The subject is that of the second,
    and its chain goes on to the subject and the chain of the first. -/
theorem ofString_compose {s t : String} {x y : Selector} (hs : ofString s = .ok x)
    (ht : ofString t = .ok y) (hodd : ¬ Odd (backslashesAtEnd s.toList)) (k : Combinator) :
    ofString (s ++ k.joint ++ t) = .ok (x.compose k y) := by
  obtain ⟨mark, hjoint, hmark⟩ := k.toList_joint
  have hopen : endsOpen s.toList = false := by
    rwa [← Bool.not_eq_true, endsOpen_iff]
  have htext : (s ++ k.joint ++ t).toList = s.toList ++ ' ' :: (mark ++ t.toList) := by
    rw [String.toList_append, String.toList_append, hjoint, List.append_assoc, List.cons_append]
  rw [ofString, htext]
  exact ofList_compose hs ht hopen hmark

theorem ofString_compose_escape_at_end :
    let x : Selector := { subject := [.typeName "A"] }
    let y : Selector := { subject := [.typeName "b"] }
    ofString "\\41" = .ok x ∧ ofString " b" = .ok y ∧ ¬ Odd (backslashesAtEnd "\\41".toList) ∧
      ofString "\\41   b" = .ok (x.compose .descendant y) := by
  intro x y
  have hname : takeName "\\41".toList = (['A'], []) := by
    show takeName ('\\' :: ['4', '1']) = _
    rw [takeName_backslash (by decide)]
    show ('A' :: (takeName []).1, (takeName []).2) = _
    rw [takeName_nil]
  have hcompound : takeCompound "\\41".toList = .ok ([.typeName "A"], []) := by
    have htype : takeType "\\41".toList = ([.typeName "A"], []) := by
      rw [takeType_of_head (by decide), if_pos (by decide), hname]
    rw [takeCompound, htype]
    show (takeSimples [] >>= _) = _
    rw [takeSimples_none rfl]
    rfl
  have hx : ofString "\\41" = .ok x := by
    apply ofList_of_takeSelector (by decide)
    show takeSelector "\\41".toList = _
    rw [takeSelector, hcompound]
    exact takeChain_none rfl _
  have hy : ofString " b" = .ok y := by
    have hb : CompoundText (nameText "b" ++ []) [.typeName "b"] :=
      CompoundText.typed ⟨by decide, by decide⟩ SimplesText.nil
    exact ofList_of_selectorText blanks_space (SelectorText.compound hb) blanks_nil
  have hodd : ¬ Odd (backslashesAtEnd "\\41".toList) := by decide
  exact ⟨hx, hy, hodd, ofString_compose hx hy hodd .descendant⟩

end UniqueSelector
