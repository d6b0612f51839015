/-
  UniqueSelector.Proofs.Synthesis.Observed

  What the search asks the host about. Every text it has checked or looked up
  reads as one compound of conditions on the tag name, on classes, on the
  attributes that are read and on the number among siblings, or does not read at
  all (`Observed`). Such a text is answered alike in two documents that are twins.

    * `observed_describe`, `observed_fragment`, `observed_idSelector` — the texts.
    * `check_twin`, `length_find_twin` — the answers.
-/

import UniqueSelector.Proofs.Dom.Twins
import UniqueSelector.Proofs.Synthesis.Fragments

namespace UniqueSelector

open Text Identifier Selector

/-! ## Conditions -/

/-- The condition is one that documents which are twins agree on. -/
inductive SimpleSelector.Observed : SimpleSelector → Prop
  | typeName (name : String) : Observed (.typeName name)
  | className (name : String) : Observed (.className name)
  | idName (name : String) : Observed (.idName name)
  | attribute {test : AttributeTest} (h : test.name ∈ readAttributes) : Observed (.attribute test)
  | nthChild (positions : AnPlusB) : Observed (.pseudo (.nthChild positions))

theorem AttributeTest.holds_alike {markup : Markup} {e e' : Element} (h : e.Alike markup e')
    {test : AttributeTest} (hname : test.name ∈ readAttributes) : test.holds e' = test.holds e := by
  rw [AttributeTest.holds, AttributeTest.holds]
  split
  · exact h.hasAttribute hname
  · rw [h.attribute? test.name hname]

namespace Tree

namespace TwinDocuments

variable {t t' : Tree} {f : NodeId → NodeId} (h : t.TwinDocuments t' f)

include h

theorem meets_eq {x : NodeId} {e e' : Element} (he : t.element? x = some e)
    (halike : e.Alike t.markup e') {simple : SimpleSelector} (hsimple : simple.Observed) :
    t'.meets (f x) e' simple = t.meets x e simple := by
  have hx : t.isElement x = true := (t.isElement_iff x).mpr ⟨e, he⟩
  cases hsimple with
  | typeName name =>
      show e'.isNamed name t'.markup = e.isNamed name t.markup
      rw [h.markup]
      exact halike.isNamed name
  | className name => exact halike.hasClass name
  | idName name => exact congrArg (· == some name) (halike.attribute? "id" (by decide))
  | «attribute» hname => exact AttributeTest.holds_alike halike hname
  | nthChild positions => rw [meets, meets, hasPlace, hasPlace, h.elementIndex? hx]

theorem meetsAll_eq {x : NodeId} (hx : t.isElement x = true) {c : Compound}
    (hc : ∀ simple ∈ c, simple.Observed) : t'.meetsAll (f x) c = t.meetsAll x c := by
  obtain ⟨e, he⟩ := (t.isElement_iff x).mp hx
  obtain ⟨e', he', halike⟩ := h.exists_element? he
  rw [meetsAll_of_element? he, meetsAll_of_element? he', Bool.eq_iff_iff, List.all_eq_true,
    List.all_eq_true]
  refine forall₂_congr fun simple hsimple => ?_
  rw [h.meets_eq he halike (hc simple hsimple)]

end TwinDocuments

end Tree

/-! ## Texts -/

namespace Synthesis

/-- Whatever selector the text spells, it is one compound of conditions that are observed. -/
def Observed (text : String) : Prop :=
  ∀ s, Selector.ofString text = .ok s → ∃ c : Compound, s = { subject := c } ∧
    ∀ simple ∈ c, simple.Observed

theorem observed_of_error {text : String}
    (h : ∃ cause, Selector.ofString text = .error cause) : Observed text := by
  intro s hs
  obtain ⟨cause, hcause⟩ := h
  rw [hcause] at hs
  cases hs

theorem observed_of_compoundText {text : String} {c : Compound} (h : CompoundText text.toList c)
    (hc : ∀ simple ∈ c, simple.Observed) : Observed text := by
  intro s hs
  rw [ofString_compound h] at hs
  cases hs
  exact ⟨c, rfl, hc⟩

theorem observed_idSelector {id e : String} (he : escape id = .ok e) (hne : id ≠ "") :
    Observed ("#" ++ e) := by
  refine observed_of_compoundText (compoundText_idSelector he hne) ?_
  simp [SimpleSelector.Observed.idName]

theorem Profile.Tells.observed {p : Profile} {simple : SimpleSelector} (h : p.Tells simple) :
    simple.Observed := by
  cases h with
  | value hname _ =>
      have hread : ["role", "type", "name"] ⊆ readAttributes := by decide
      exact .attribute (hread hname)
  | «class» _ => exact .className _
  | link hname _ _ _ =>
      have hread : ["href", "src"] ⊆ readAttributes := by decide
      exact .attribute (hread hname)

theorem Profile.Says.observed {p : Profile} {n : String} {typed : Bool} {text : List Char}
    {c : Compound} (h : p.Says n typed text c) : ∀ simple ∈ c, simple.Observed := by
  intro simple hsimple
  cases h with
  | conditions _ htells => exact (htells simple hsimple).observed
  | typed _ _ htells =>
      rcases List.mem_cons.mp hsimple with rfl | hsimple
      · exact .typeName _
      · exact (htells simple hsimple).observed

section Describe

variable {t : Tree} {node : NodeId} {p : Profile} {budget : Nat} {text : String}
  (hp : Profile.ofNode? t node = .ok (some p)) (htext : p.describe budget = .ok text)

include hp htext

/-- A description is empty or reads as a compound. -/
theorem compoundText_of_describe :
    ∃ c, (text.toList = [] ∨ CompoundText text.toList c) ∧ ∀ simple ∈ c, simple.Observed := by
  obtain ⟨-, hdescribes⟩ := Profile.describes_of_ofNode? hp
  have hsaid := Profile.says_describe hdescribes htext
  refine ⟨_, ?_, hsaid.observed⟩
  by_cases hempty : text.toList = []
  · exact Or.inl hempty
  · exact Or.inr (hsaid.compoundText hempty)

theorem observed_describe : Observed text := by
  obtain ⟨c, hempty | hread, hc⟩ := compoundText_of_describe hp htext
  · rw [String.toList_eq_nil_iff.mp hempty]
    exact observed_of_error ⟨_, rfl⟩
  · exact observed_of_compoundText hread hc

/-- A place behind it is one more condition, or cannot be read. -/
theorem observed_placed (sibling : NodeId) : Observed (text ++ placeFragment t sibling) := by
  obtain ⟨c, hread, hc⟩ := compoundText_of_describe hp htext
  obtain ⟨k, hplace⟩ := exists_toList_placeFragment t sibling
  cases hk : word? k with
  | none =>
      obtain ⟨cause, hcause⟩ := ofList_faulty hread (faultyText_position hk)
      refine observed_of_error ⟨cause, ?_⟩
      rw [Selector.ofString, String.toList_append, hplace, hcause]
  | some offset =>
      -- Behind an empty description the place is the whole compound.
      have hposition := SimplesText.single (simpleText_position hk)
      have hall : ∀ c' : Compound, (∀ simple ∈ c', simple.Observed) →
          ∀ simple ∈ c' ++ [.pseudo (.nthChild { step := 0, offset })], simple.Observed := by
        intro c' hc' simple hsimple
        rcases List.mem_append.mp hsimple with hsimple | hsimple
        · exact hc' simple hsimple
        · rw [List.mem_singleton.mp hsimple]
          exact .nthChild _
      rcases hread with hempty | hread
      · refine observed_of_compoundText ?_ (hall [] (by simp))
        rw [String.toList_append, hplace, hempty]
        exact CompoundText.plain hposition (by simp)
      · refine observed_of_compoundText ?_ (hall c hc)
        rw [String.toList_append, hplace]
        exact hread.append hposition

/-- So the fragment of a level is observed, whatever place is found for its element. -/
theorem observed_fragment {place : String}
    (hplace : Answers (tieBreaker (Host.ofTree t) t node text) (.ok place)) :
    Observed (text ++ place) := by
  rcases tieBreaker_cases t node text with ⟨cause, hanswer⟩ | ⟨place', hanswer, hsuffix⟩
  · cases hplace.unique {} hanswer
  · cases Except.ok.inj (hplace.unique {} hanswer)
    cases hsuffix with
    | shared _ _ => exact observed_placed hp htext node
    | alone _ =>
        rw [String.append_empty]
        exact observed_describe hp htext

end Describe

/-! ## Answers -/

section Answers

variable {t t' : Tree} {f : NodeId → NodeId} (h : t.TwinDocuments t' f) {text : String}
  (htext : Observed text)

include h htext

theorem check_twin {x : NodeId} (hx : t.isElement x = true) :
    t'.check (f x) text = t.check x text := by
  rw [Tree.check, Tree.check]
  cases hread : Selector.ofString text with
  | error cause => rfl
  | ok s =>
      obtain ⟨c, rfl, hc⟩ := htext s hread
      dsimp only
      rw [Tree.picks_compound, Tree.picks_compound, h.meetsAll_eq hx hc]

theorem length_find_twin : (t'.find text).length = (t.find text).length := by
  rw [Tree.find, Tree.find]
  cases hread : Selector.ofString text with
  | error cause => rfl
  | ok s =>
      obtain ⟨c, rfl, hc⟩ := htext s hread
      -- The order of the elements may differ, and a count does not see it.
      dsimp only
      rw [Tree.select, Tree.select, ← List.countP_eq_length_filter, ← List.countP_eq_length_filter,
        ← h.perm_elements.countP_eq, List.countP_map]
      refine List.countP_congr fun x hx => ?_
      rw [Function.comp_apply, Tree.picks_compound, Tree.picks_compound,
        h.meetsAll_eq ((h.left.mem_elements_iff x).mp hx) hc]

end Answers

end Synthesis

end UniqueSelector
