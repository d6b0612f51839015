/-
  UniqueSelector.Proofs.Synthesis.Place

  The place of an element among its siblings, as the search writes it and as a
  selector checks it. Nodes are counted in signed words, as positions are, so
  the number that is written is one that can be read.

    * `Synthesis.Placed`, `Synthesis.placeFragment_reads` — the place is read back
      as the number of the element, which has it, and no sibling.
-/

import UniqueSelector.Proofs.Selector.Places
import UniqueSelector.Synthesis.Ascent

namespace UniqueSelector

open Text Selector

namespace Synthesis

/-! ## The place of an element -/

theorem toList_position (k : Nat) :
    s!":nth-child({k})".toList = ":nth-child(".toList ++ (Nat.toDigits 10 k ++ [')']) := by
  show (":nth-child(" ++ toString k ++ ")").toList = _
  rw [String.toList_append, String.toList_append, List.append_assoc, toList_toString_nat]
  rfl

/-- Whatever the place, it is written in digits. -/
theorem exists_toList_placeFragment (t : Tree) (node : NodeId) :
    ∃ k, (placeFragment t node).toList = ":nth-child(".toList ++ (Nat.toDigits 10 k ++ [')']) := by
  rw [placeFragment]
  exact ⟨_, toList_position _⟩

theorem toList_placeFragment {t : Tree} {node : NodeId} {k : Nat}
    (h : (t.elementSiblings node).idxOf? node = some k) :
    (placeFragment t node).toList = ":nth-child(".toList ++ (Nat.toDigits 10 (k + 1) ++ [')']) := by
  simp only [placeFragment, h]
  exact toList_position (k + 1)

theorem elementSiblings_eq {t : Tree} {node parent : NodeId}
    (h : t.parentElement? node = some parent) :
    t.elementSiblings node = t.elementChildren parent := by
  rw [Tree.elementSiblings, h]

theorem parent?_of_parentElement? {t : Tree} {node parent : NodeId}
    (h : t.parentElement? node = some parent) :
    t.parent? node = some parent ∧ t.isElement parent = true :=
  Option.filter_eq_some_iff.mp h

/-- The place that is written is read as one position, that of the element among its siblings. -/
structure Placed (t : Tree) (node parent : NodeId) (offset : Int64) : Prop where
  reads : SimpleText (placeFragment t node).toList (.pseudo (.nthChild { step := 0, offset }))
  index : ∃ k : Nat, t.elementIndex? node = some k ∧ offset.toInt = k
  has : t.hasPlace node (.nthChild { step := 0, offset }) = true
  alone : ∀ x, t.parent? x = some parent → t.hasPlace x (.nthChild { step := 0, offset }) = true →
    x = node

theorem placeFragment_reads {t : Tree} (ht : t.Linked) (hsize : t.FitsMemory)
    {node parent : NodeId} (hnode : t.isElement node = true)
    (hparent : t.parentElement? node = some parent) : ∃ offset, Placed t node parent offset := by
  have hchild := (parent?_of_parentElement? hparent).1
  obtain ⟨k, hk⟩ := ht.exists_childAt hnode hchild
  -- The number is no larger than the tree, so it is a word and can be read back.
  obtain ⟨offset, hoffset⟩ := ht.exists_word?_of_childAt hk hsize
  have hsiblings : (t.elementSiblings node).idxOf? node = some k := by
    rw [elementSiblings_eq hparent]
    exact (ht.idxOf?_eq_some_iff parent node k).mpr hk
  refine ⟨offset, ?_, ⟨k + 1, ht.elementIndex?_of_childAt hk, toInt_of_word? hoffset⟩, ?_, ?_⟩
  · rw [toList_placeFragment hsiblings]
    exact simpleText_position hoffset
  · rw [ht.hasPlace_nthChild_iff hchild]
    exact ⟨k, hk, offset, hoffset, AnPlusB.selects_iff.mpr rfl⟩
  · -- Siblings with one number stand at one place.
    intro x hx hplace
    obtain ⟨i, hi, index, hindex, hselects⟩ := (ht.hasPlace_nthChild_iff hx _).mp hplace
    obtain rfl := AnPlusB.selects_iff.mp hselects
    have hsame : ((i + 1 : Nat) : Int) = ((k + 1 : Nat) : Int) := by
      rw [← toInt_of_word? hindex, ← toInt_of_word? hoffset]
    obtain rfl : i = k := by omega
    exact hi.child_unique hk

end Synthesis

end UniqueSelector
