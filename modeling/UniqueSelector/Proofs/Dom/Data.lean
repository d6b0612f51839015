/-
  UniqueSelector.Proofs.Dom.Data

  What the elements of a tree hold: names, values and classes. Two things are
  asked of them further on, that every tag name has a letter at least and that
  NUL occurs nowhere.

    * `Tree.Tagged`, `Tree.NulFree` — the two demands, and how to check them node
      by node.
    * `Element.NulFree.selectorName`, `Element.NulFree.class` — what is read off
      a tag name or an attribute holds no NUL either.
-/

import UniqueSelector.Dom.Tree

namespace UniqueSelector

open Text

/-! ## Tag names and NUL -/

/-- No text of the element, its tag name or a value of an attribute, holds NUL. -/
def Element.NulFree (e : Element) : Prop :=
  '\x00' ∉ e.tag.toList ∧ ∀ name value, e.attribute? name = some value → '\x00' ∉ value.toList

/-- Every element has a tag name. -/
def Tree.Tagged (t : Tree) : Prop :=
  ∀ id e, t.element? id = some e → e.tag ≠ ""

/-- No tag name and no value of an attribute in the tree holds NUL. -/
def Tree.NulFree (t : Tree) : Prop :=
  ∀ id e, t.element? id = some e → e.NulFree

/-- What the elements hold, whether they are part of the document or not. -/
def Tree.data (t : Tree) : List Element :=
  t.nodes.toList.filterMap fun n =>
    match n.kind with
    | .element e => some e
    | _ => none

theorem Tree.mem_data {t : Tree} {id : NodeId} {e : Element} (h : t.element? id = some e) :
    e ∈ t.data := by
  rw [element?] at h
  split at h
  · rename_i data hkind
    cases h
    obtain ⟨n, hn, hdata⟩ := Option.map_eq_some_iff.mp hkind
    have hmem : n ∈ t.nodes.toList := Array.mem_toList_iff.mpr (Array.mem_of_getElem? hn)
    exact List.mem_filterMap.mpr ⟨n, hmem, by rw [hdata]⟩
  · cases h

theorem Tree.tagged_of_data {t : Tree} (h : ∀ e ∈ t.data, e.tag ≠ "") : t.Tagged :=
  fun _ e he => h e (Tree.mem_data he)

theorem Tree.nulFree_of_data {t : Tree} (h : ∀ e ∈ t.data, '\x00' ∉ e.tag.toList ∧
    ∀ entry ∈ e.attributes.entries, '\x00' ∉ entry.2.toList) : t.NulFree := by
  intro id e he
  obtain ⟨htag, hentries⟩ := h e (Tree.mem_data he)
  refine ⟨htag, fun name value hvalue => ?_⟩
  obtain ⟨before, after, hsplit, -⟩ := List.lookup_eq_some_iff.mp hvalue
  exact hentries (name, value) (by rw [hsplit]; simp)

/-! ## Letter case -/

theorem toLower_ne_nul {c : Char} (h : c ≠ '\x00') : c.toLower ≠ '\x00' := by
  by_cases hupper : 'A'.val ≤ c.val ∧ c.val ≤ 'Z'.val
  · intro hlower
    have hval : c.val + 32 = 0 := by rw [← val_toLower_of_upper hupper, hlower]; rfl
    have hnat := congrArg UInt32.toNat hval
    have hle : 65 ≤ c.val.toNat ∧ c.val.toNat ≤ 90 := hupper
    rw [UInt32.toNat_add] at hnat
    simp only [UInt32.reduceToNat] at hnat
    omega
  · rw [toLower_of_not_upper hupper]
    exact h

theorem Element.NulFree.selectorName {e : Element} (h : e.NulFree) (markup : Markup) :
    '\x00' ∉ (e.selectorName markup).toList := by
  cases markup with
  | xhtml => exact h.1
  | html =>
      show '\x00' ∉ (lower e.tag).toList
      rw [toList_lower, List.mem_map]
      rintro ⟨c, hc, hnul⟩
      have hne : c ≠ '\x00' := by
        rintro rfl
        exact h.1 hc
      exact toLower_ne_nul hne hnul

theorem Element.isNamed_selectorName (e : Element) (markup : Markup) :
    e.isNamed (e.selectorName markup) markup = true := by
  cases markup with
  | xhtml => exact beq_self_eq_true e.tag
  | html =>
      have hlower : lower (lower e.tag) = lower e.tag := by
        rw [lower, toList_lower, List.map_map, lower]
        exact congrArg String.ofList (List.map_congr_left fun c _ => toLower_toLower c)
      show (lower e.tag == lower (lower e.tag)) = true
      rw [hlower]
      exact beq_self_eq_true _

theorem Element.selectorName_ne_empty {e : Element} (h : e.tag ≠ "") (markup : Markup) :
    e.selectorName markup ≠ "" := by
  cases markup with
  | xhtml => exact h
  | html =>
      intro hempty
      have hchars : (lower e.tag).toList = [] := by
        rw [show lower e.tag = "" from hempty]
        rfl
      rw [toList_lower, List.map_eq_nil_iff] at hchars
      exact h (String.toList_eq_nil_iff.mp hchars)

/-! ## Words and classes -/

theorem subset_of_mem_splitOnP {p : Char → Bool} {s piece : List Char} (h : piece ∈ s.splitOnP p) :
    piece ⊆ s := by
  induction s generalizing piece with
  | nil =>
      rw [List.splitOnP_nil, List.mem_singleton] at h
      rw [h]
      exact List.Subset.refl []
  | cons c cs ih =>
      rw [List.splitOnP_cons_eq_if_modifyHead] at h
      split at h
      · rcases List.mem_cons.mp h with rfl | h
        · exact List.nil_subset _
        · exact List.subset_cons_of_subset c (ih h)
      · cases hpieces : cs.splitOnP p with
        | nil => exact absurd hpieces (List.splitOnP_ne_nil p cs)
        | cons first rest =>
            rw [hpieces] at h ih
            rcases List.mem_cons.mp h with rfl | h
            · exact List.cons_subset_cons c (ih List.mem_cons_self)
            · exact List.subset_cons_of_subset c (ih (List.mem_cons_of_mem _ h))

/-- A word is not empty and has its characters from the text. -/
theorem word_of_mem_words {s word : String} (h : word ∈ words s) :
    word ≠ "" ∧ word.toList ⊆ s.toList := by
  rw [words, List.mem_map] at h
  obtain ⟨chars, hchars, rfl⟩ := h
  rw [List.mem_filter] at hchars
  rw [String.toList_ofList]
  exact ⟨by simpa using hchars.2, subset_of_mem_splitOnP hchars.1⟩

theorem Element.class_ne_empty {e : Element} {name : String} (h : e.hasClass name = true) :
    name ≠ "" := by
  rw [Element.hasClass] at h
  split at h
  · cases h
  · exact (word_of_mem_words (List.contains_iff_mem.mp h)).1

theorem Element.NulFree.class {e : Element} (he : e.NulFree) {name : String}
    (h : e.hasClass name = true) : '\x00' ∉ name.toList := by
  rw [Element.hasClass] at h
  split at h
  · cases h
  · rename_i value hvalue
    exact fun hmem => he.2 "class" value hvalue
      ((word_of_mem_words (List.contains_iff_mem.mp h)).2 hmem)

end UniqueSelector
