/-
  UniqueSelector.Proofs.Selector.Places

  What the pseudo-classes say of the place of an element. Each of them looks at
  the list of element children in a way of its own: at its head, at its last
  member, at all of it, or at a number in it. They agree because an element stands
  at one place of that list.

    * `Tree.positionText` — `:nth-child` with a number.
    * `Tree.Linked.check_position_iff` and those behind it — each pseudo-class as a
      condition on the place of the element.
    * `Tree.PlacesAgree` — how they go together; `Tree.placesAgree`.

  The tree may have detached parts: the element needs a parent, of whatever kind.
-/

import UniqueSelector.Host
import UniqueSelector.Proofs.Dom.Places
import UniqueSelector.Proofs.Selector.Positions
import UniqueSelector.Proofs.Selector.Progression

namespace UniqueSelector.Tree

open Text Selector

/-! ## One condition on the place -/

theorem check_of_ofString {text : String} {condition : PseudoClass}
    (h : Selector.ofString text = .ok { subject := [.pseudo condition] }) (t : Tree) (id : NodeId) :
    t.check id text = .ok true ↔ t.isElement id = true ∧ t.hasPlace id condition = true := by
  rw [check, h]
  dsimp only
  rw [Except.ok.injEq, picks_compound, meetsAll_pseudo_iff]

theorem check_pseudo_iff {text : String} {condition : PseudoClass}
    (h : text.toList = ':' :: condition.text) (t : Tree) (id : NodeId) :
    t.check id text = .ok true ↔ t.isElement id = true ∧ t.hasPlace id condition = true := by
  have hsimple := simpleText_pseudo condition
  rw [← h] at hsimple
  exact check_of_ofString
    (ofString_compound (CompoundText.plain (SimplesText.single hsimple) (by simp))) t id

/-- With an argument that cannot be read nothing is picked out. -/
theorem check_nthChild_iff {argument : String} (hclose : ')' ∉ argument.toList) (t : Tree)
    (id : NodeId) : t.check id (":nth-child(" ++ argument ++ ")") = .ok true ↔
      ∃ p, AnPlusB.ofChars? argument.toList = some p ∧ t.isElement id = true ∧
        t.hasPlace id (.nthChild p) = true := by
  have hread := ofString_nthChild_eq argument hclose
  constructor
  · intro h
    cases htext : Selector.ofString (":nth-child(" ++ argument ++ ")") with
    | error cause =>
        rw [check, htext] at h
        cases h
    | ok s =>
        obtain ⟨p, hp, rfl⟩ := (hread s).mp htext
        exact ⟨p, hp, (check_of_ofString htext t id).mp h⟩
  · rintro ⟨p, hp, hplace⟩
    exact (check_of_ofString ((hread _).mpr ⟨p, hp, rfl⟩) t id).mpr hplace

/-- `:nth-child` with a number. -/
def positionText (k : Int) : String :=
  s!":nth-child({k})"

/-- A number that is no word makes no selector. -/
theorem check_positionText_iff (t : Tree) (id : NodeId) (k : Int) :
    t.check id (positionText k) = .ok true ↔ ∃ offset : Int64, offset.toInt = k ∧
      t.isElement id = true ∧ t.hasPlace id (.nthChild { step := 0, offset }) = true := by
  have hclose : ')' ∉ (toString k).toList := by
    rw [toList_toString_int]
    exact fun hmem => (isNumeric_of_mem_decimalText hmem).ne (Or.inl (by decide)) rfl
  rw [show positionText k = ":nth-child(" ++ toString k ++ ")" from rfl, check_nthChild_iff hclose,
    toList_toString_int, ofChars?_decimalText]
  simp only [Option.map_eq_some_iff, word?_eq_some_iff]
  constructor
  · rintro ⟨_, ⟨offset, hoffset, rfl⟩, hplace⟩
    exact ⟨offset, hoffset, hplace⟩
  · rintro ⟨offset, hoffset, hplace⟩
    exact ⟨_, ⟨offset, hoffset, rfl⟩, hplace⟩

/-! ## Conditions on the place of an element -/

/-- An element has the places that hold its number, if that number is a word. -/
theorem Linked.hasPlace_nthChild_iff {t : Tree} (ht : t.Linked) {parent id : NodeId}
    (hparent : t.parent? id = some parent) (p : AnPlusB) : t.hasPlace id (.nthChild p) = true ↔
      ∃ k, t.ChildAt parent k id ∧
        ∃ index, word? (k + 1 : Nat) = some index ∧ p.selects index = true := by
  rw [hasPlace, elementIndex?_eq hparent, Option.any_eq_true]
  simp only [Option.bind_eq_some_iff, Option.map_eq_some_iff, ht.idxOf?_eq_some_iff]
  constructor
  · rintro ⟨index, ⟨_, ⟨k, hk, rfl⟩, hindex⟩, hselects⟩
    exact ⟨k, hk, index, hindex, hselects⟩
  · rintro ⟨k, hk, index, hindex, hselects⟩
    exact ⟨index, ⟨_, ⟨k, hk, rfl⟩, hindex⟩, hselects⟩

section Place

variable {t : Tree} (ht : t.Linked) {parent id : NodeId} {k : Nat} (h : t.ChildAt parent k id)

include ht h

theorem Linked.inclusiveSiblings_of_childAt : t.inclusiveSiblings id = t.elementChildren parent := by
  rw [inclusiveSiblings, ht.parent?_of_childAt h]

theorem Linked.check_firstChild_iff : t.check id ":first-child" = .ok true ↔ k = 0 := by
  rw [check_pseudo_iff (by decide : _ = ':' :: PseudoClass.firstChild.text),
    and_iff_right h.isElement, hasPlace, ht.inclusiveSiblings_of_childAt h, beq_iff_eq,
    List.head?_eq_getElem?]
  exact (ht.childAt_iff h 0).trans eq_comm

theorem Linked.check_lastChild_iff :
    t.check id ":last-child" = .ok true ↔ k + 1 = (t.elementChildren parent).length := by
  have hlt := h.lt_length
  rw [check_pseudo_iff (by decide : _ = ':' :: PseudoClass.lastChild.text),
    and_iff_right h.isElement, hasPlace, ht.inclusiveSiblings_of_childAt h, beq_iff_eq,
    List.getLast?_eq_getElem?]
  refine (ht.childAt_iff h _).trans ?_
  omega

theorem Linked.check_onlyChild_iff :
    t.check id ":only-child" = .ok true ↔ (t.elementChildren parent).length = 1 := by
  rw [check_pseudo_iff (by decide : _ = ':' :: PseudoClass.onlyChild.text),
    and_iff_right h.isElement, hasPlace, ht.inclusiveSiblings_of_childAt h, beq_iff_eq]
  constructor
  · intro hlist
    rw [hlist, List.length_singleton]
  · intro hlength
    obtain ⟨only, honly⟩ := List.length_eq_one_iff.mp hlength
    have hmem := h.mem
    rw [honly, List.mem_singleton] at hmem
    rw [honly, hmem]

variable (hsize : t.FitsMemory)

include hsize

theorem Linked.exists_word?_of_childAt : ∃ index, word? (k + 1 : Nat) = some index := by
  have hlt := h.lt_length
  have hlength := ht.length_elementChildren_le parent
  rw [FitsMemory] at hsize
  exact exists_word?_of_lt (by omega)

/-- The number of an element is one more than its place, and no other number picks it out. -/
theorem Linked.check_position_iff (j : Int) :
    t.check id (positionText j) = .ok true ↔ j = (k + 1 : Nat) := by
  simp only [check_positionText_iff, ht.hasPlace_nthChild_iff (ht.parent?_of_childAt h),
    AnPlusB.selects_iff]
  constructor
  · rintro ⟨offset, rfl, -, i, hi, index, hindex, rfl⟩
    rw [toInt_of_word? hindex, (ht.childAt_iff h i).mp hi]
  · rintro rfl
    obtain ⟨index, hindex⟩ := ht.exists_word?_of_childAt h hsize
    exact ⟨index, toInt_of_word? hindex, h.isElement, k, h, index, hindex, rfl⟩

/-- No place is so far from an offset that is not negative that the test would give up. -/
theorem Linked.check_nthChild_iff_denotes (argument : String) {p : AnPlusB}
    (hread : AnPlusB.ofChars? argument.toList = some p) (hclose : ')' ∉ argument.toList)
    (hoffset : 0 ≤ p.offset.toInt) :
    t.check id (":nth-child(" ++ argument ++ ")") = .ok true ↔ p.Denotes (k + 1 : Nat) := by
  obtain ⟨index, hindex⟩ := ht.exists_word?_of_childAt h hsize
  have hvalue := toInt_of_word? hindex
  have hupper : index.toInt < 2 ^ 63 := Int64.toInt_lt index
  have hoffset' : p.offset.toInt < 2 ^ 63 := Int64.toInt_lt p.offset
  -- Place and offset are not negative, so their distance is a word and not the least one.
  have hselects : p.selects index = true ↔ p.Denotes (k + 1 : Nat) := by
    rw [AnPlusB.selects_eq_true_iff, hvalue]
    refine and_iff_left ⟨⟨?_, ?_⟩, ?_⟩
    · omega
    · omega
    · rintro ⟨-, hleast⟩
      omega
  rw [check_nthChild_iff hclose, ← hselects]
  simp only [hread, ht.hasPlace_nthChild_iff (ht.parent?_of_childAt h), Option.some.injEq,
    exists_eq_left']
  constructor
  · rintro ⟨-, i, hi, index', hindex', hplace⟩
    obtain rfl := (ht.childAt_iff h i).mp hi
    obtain rfl : index = index' := Option.some.inj (hindex.symm.trans hindex')
    exact hplace
  · intro hplace
    exact ⟨h.isElement, k, h, index, hindex, hplace⟩

theorem Linked.check_odd_iff : t.check id ":nth-child(odd)" = .ok true ↔ k % 2 = 0 := by
  have hread : AnPlusB.ofChars? "odd".toList = some ⟨2, 1⟩ := by decide
  rw [show ":nth-child(odd)" = ":nth-child(" ++ "odd" ++ ")" from rfl,
    ht.check_nthChild_iff_denotes h hsize "odd" hread (by decide) (by decide)]
  change (∃ n : Int, 0 ≤ n ∧ 2 * n + 1 = (k + 1 : Nat)) ↔ _
  constructor
  · rintro ⟨n, hn, hodd⟩
    omega
  · intro heven
    refine ⟨(k / 2 : Nat), ?_, ?_⟩ <;> omega

theorem Linked.check_even_iff : t.check id ":nth-child(even)" = .ok true ↔ k % 2 = 1 := by
  have hread : AnPlusB.ofChars? "even".toList = some ⟨2, 0⟩ := by decide
  rw [show ":nth-child(even)" = ":nth-child(" ++ "even" ++ ")" from rfl,
    ht.check_nthChild_iff_denotes h hsize "even" hread (by decide) (by decide)]
  change (∃ n : Int, 0 ≤ n ∧ 2 * n + 0 = (k + 1 : Nat)) ↔ _
  constructor
  · rintro ⟨n, hn, heven⟩
    omega
  · intro hodd
    refine ⟨((k + 1) / 2 : Nat), ?_, ?_⟩ <;> omega

end Place

/-! ## They agree -/

/-- What the pseudo-classes say of the element children of `parent`, and of `id` among them. -/
structure PlacesAgree (t : Tree) (parent id : NodeId) : Prop where
  number : ∃! k : Int, t.check id (positionText k) = .ok true
  number_le : ∀ k : Int, t.check id (positionText k) = .ok true →
    1 ≤ k ∧ k ≤ (t.elementChildren parent).length
  holder : ∀ k : Int, 1 ≤ k → k ≤ (t.elementChildren parent).length →
    ∃! c, c ∈ t.elementChildren parent ∧ t.check c (positionText k) = .ok true
  first_iff : t.check id ":first-child" = .ok true ↔ t.check id (positionText 1) = .ok true
  last_iff : t.check id ":last-child" = .ok true ↔
    t.check id (positionText (t.elementChildren parent).length) = .ok true
  only_iff : t.check id ":only-child" = .ok true ↔
    t.check id ":first-child" = .ok true ∧ t.check id ":last-child" = .ok true
  odd_iff_not_even : ∀ c ∈ t.elementChildren parent,
    (t.check c ":nth-child(odd)" = .ok true ↔ ¬ t.check c ":nth-child(even)" = .ok true)

theorem Linked.placesAgree_of_childAt {t : Tree} (ht : t.Linked) (hsize : t.FitsMemory)
    {parent id : NodeId} {k : Nat} (h : t.ChildAt parent k id) : t.PlacesAgree parent id where
  number := by
    simp only [ht.check_position_iff h hsize]
    exact existsUnique_eq
  number_le := by
    intro j hj
    have hlt := h.lt_length
    rw [ht.check_position_iff h hsize] at hj
    omega
  holder := by
    intro j hlower hupper
    -- The element with the number `j` is the one that `j - 1` others stand before.
    obtain ⟨i, rfl⟩ : ∃ i : Nat, j = (i + 1 : Nat) := ⟨(j - 1).toNat, by omega⟩
    obtain ⟨c, hc⟩ : ∃ c, t.ChildAt parent i c := childAt_of_lt (by omega)
    refine ⟨c, ⟨hc.mem, (ht.check_position_iff hc hsize _).mpr rfl⟩, ?_⟩
    rintro c' ⟨hmem, hcheck⟩
    obtain ⟨i', hc'⟩ : ∃ i', t.ChildAt parent i' c' := List.getElem?_of_mem hmem
    rw [ht.check_position_iff hc' hsize] at hcheck
    obtain rfl : i' = i := by omega
    exact hc'.child_unique hc
  first_iff := by
    rw [ht.check_firstChild_iff h, ht.check_position_iff h hsize]
    omega
  last_iff := by
    rw [ht.check_lastChild_iff h, ht.check_position_iff h hsize]
    omega
  only_iff := by
    have hlt := h.lt_length
    rw [ht.check_onlyChild_iff h, ht.check_firstChild_iff h, ht.check_lastChild_iff h]
    omega
  odd_iff_not_even := by
    intro c hmem
    obtain ⟨i, hc⟩ := List.getElem?_of_mem hmem
    rw [ht.check_odd_iff hc hsize, ht.check_even_iff hc hsize]
    omega

theorem check_root_iff (t : Tree) (id : NodeId) :
    t.check id ":root" = .ok true ↔ t.documentElement? = some id := by
  rw [check_pseudo_iff (by decide : _ = ':' :: PseudoClass.root.text), hasPlace_root_iff]
  exact and_iff_right_of_imp isElement_of_documentElement?

/-- In a tree that fit calls built, the pseudo-classes agree on the place of each element that has
    a parent, and no two nodes are the root. -/
theorem placesAgree {mayHold : Tree → NodeId → Prop} {t : Tree} (ht : Grown mayHold t)
    (hsize : t.FitsMemory) :
    (∀ parent id, t.isElement id = true → t.parent? id = some parent →
      t.PlacesAgree parent id) ∧
    ∀ x y, t.check x ":root" = .ok true → t.check y ":root" = .ok true → x = y := by
  constructor
  · intro parent id hid hparent
    obtain ⟨k, hk⟩ := ht.linked.exists_childAt hid hparent
    exact ht.linked.placesAgree_of_childAt hsize hk
  · intro x y hx hy
    rw [check_root_iff] at hx hy
    exact Option.some.inj (hx.symm.trans hy)

/-- Of three items with a text between them the second is the fourth child. -/
theorem placesAgree_second_item :
    let t := ofSketch .html (.element { tag := "ul" }
      [.element { tag := "li" } [], .text "and", .element { tag := "li" } [],
        .element { tag := "li" } []])
    Grown MayHold t ∧ t.FitsMemory ∧ t.PlacesAgree 1 4 ∧
      t.check 4 (positionText 2) = .ok true := by
  intro t
  have hgrown : Grown MayHold t := (isDocument_ofSketch .html rfl).whole.grown
  have hsize : t.FitsMemory := by
    rw [FitsMemory, show t.size = 6 from rfl]
    decide
  have hplace : t.ChildAt 1 1 4 := rfl
  exact ⟨hgrown, hsize, (placesAgree hgrown hsize).1 1 4 rfl rfl,
    (hgrown.linked.check_position_iff hplace hsize 2).mpr rfl⟩

end UniqueSelector.Tree
