/-
  UniqueSelector.Proofs.Selector.Semantics

  What a selector means, without a word on how it is looked for: an element can be
  assigned to every compound, the node itself to the subject, so that each lies to
  the one before as its combinator says. The matcher tries candidates one after
  the other and goes back when a choice leads nowhere; it finds out just that.

    * `Tree.Lies` — the four combinators, through parents and lists of children.
    * `Tree.Fits` — the meaning of a selector.
    * `Tree.picks_find_iff_fits` — the matcher, and the list of all that a text
      finds in a document.

  The candidates of one step are the nodes that lie as its combinator says
  (`Linked.mem_related_iff`), which for siblings rests on their links following
  the list of children. The induction on the chain then drops the first node of an
  assignment, or puts one in front.
-/

import UniqueSelector.Host
import UniqueSelector.Proofs.Dom.Loading
import UniqueSelector.Proofs.Dom.Order
import UniqueSelector.Proofs.Dom.Siblings

namespace UniqueSelector.Tree

/-! ## The meaning of a selector -/

/-- The node `left` lies to the node `right` as the combinator between them says. -/
def Lies (t : Tree) (left right : NodeId) : Combinator → Prop
  | .descendant => t.Above left right
  | .child => t.parent? right = some left
  | .nextSibling =>
    t.isElement left = true ∧ t.Earlier left right ∧
      ∀ x, t.isElement x = true → t.Earlier x right → x = left ∨ t.Earlier x left
  | .subsequentSibling => t.isElement left = true ∧ t.Earlier left right

/-- Each place of the assignment behind the first is an element that meets its compound, and lies
    to the place before it as its combinator says. -/
def Follows (t : Tree) (chain : List (Combinator × Compound)) (place : Nat → NodeId) : Prop :=
  ∀ i link, chain[i]? = some link →
    t.meetsAll (place (i + 1)) link.2 = true ∧ t.Lies (place (i + 1)) (place i) link.1

/-- Elements can be assigned to the compounds of the selector, the node to its subject. -/
def Fits (t : Tree) (s : Selector) (id : NodeId) : Prop :=
  ∃ place : Nat → NodeId,
    place 0 = id ∧ t.meetsAll (place 0) s.subject = true ∧ t.Follows s.chain place

theorem follows_cons_iff (t : Tree) (link : Combinator × Compound)
    (chain : List (Combinator × Compound)) (place : Nat → NodeId) :
    t.Follows (link :: chain) place ↔
      (t.meetsAll (place 1) link.2 = true ∧ t.Lies (place 1) (place 0) link.1) ∧
        t.Follows chain fun i => place (i + 1) := by
  constructor
  · intro h
    exact ⟨h 0 link rfl, fun i next hnext => h (i + 1) next hnext⟩
  · rintro ⟨hfirst, hrest⟩ i next hnext
    cases i with
    | zero =>
        cases hnext
        exact hfirst
    | succ i => exact hrest i next hnext

/-! ## Candidates -/

section Candidates

variable {t : Tree} (ht : t.Linked)

include ht

/-- The nearest of the elements before a child is the one behind which there are none. -/
theorem lies_nextSibling_iff {parent right : NodeId} {before after : List NodeId}
    (hsplit : t.children parent = before ++ right :: after) (left : NodeId) :
    t.Lies left right .nextSibling ↔
      t.isElement left = true ∧ ∃ front back, before = front ++ left :: back ∧
        ∀ x ∈ back, t.isElement x = false := by
  have hcut : ∀ {front back : List NodeId}, before = front ++ left :: back →
      t.children parent = front ++ left :: (back ++ right :: after) := by
    intro front back hbefore
    rw [hsplit, hbefore, List.append_assoc, List.cons_append]
  constructor
  · rintro ⟨helement, hearlier, hnearest⟩
    obtain ⟨front, back, hbefore⟩ := List.append_of_mem ((ht.earlier_iff hsplit left).mp hearlier)
    refine ⟨helement, front, back, hbefore, fun x hx => ?_⟩
    have hnodup := ht.nodup_children parent
    rw [hcut hbefore, List.nodup_append] at hnodup
    obtain ⟨-, hback, hdisjoint⟩ := hnodup
    -- An element behind it would be earlier than it, and no child stands twice.
    rw [Bool.eq_false_iff]
    intro hxelement
    have hxright : t.Earlier x right := (ht.earlier_iff hsplit x).mpr (by simp [hbefore, hx])
    rcases hnearest x hxelement hxright with rfl | hxleft
    · exact (List.nodup_cons.mp hback).1 (List.mem_append_left _ hx)
    · have hxfront := (ht.earlier_iff (hcut hbefore) x).mp hxleft
      exact hdisjoint x hxfront x (by simp [hx]) rfl
  · rintro ⟨helement, front, back, hbefore, hnone⟩
    refine ⟨helement, (ht.earlier_iff hsplit left).mpr (by simp [hbefore]), fun x hx hxright => ?_⟩
    have hmem := (ht.earlier_iff hsplit x).mp hxright
    rw [hbefore, List.mem_append, List.mem_cons] at hmem
    rcases hmem with hfront | rfl | hback
    · exact Or.inr ((ht.earlier_iff (hcut hbefore) x).mpr hfront)
    · exact Or.inl rfl
    · rw [hnone x hback] at hx
      cases hx

variable (hthreaded : t.Threaded)

include hthreaded

/-- A node without a parent has nothing before it. -/
theorem precedingElements_of_free {right : NodeId} (hfree : t.parent? right = none)
    (left : NodeId) : left ∉ t.precedingElements right ∧ ¬ t.Earlier left right := by
  constructor
  · intro h
    rw [precedingElements, hthreaded.precedingSiblings_of_free hfree] at h
    cases h
  · rintro ⟨parent, hsublist⟩
    exact ht.not_mem_children_of_free hfree parent (hsublist.subset (by simp))

theorem mem_precedingElements_iff (left right : NodeId) :
    left ∈ t.precedingElements right ↔ t.isElement left = true ∧ t.Earlier left right := by
  cases hparent : t.parent? right with
  | none =>
      obtain ⟨hnone, hnot⟩ := precedingElements_of_free ht hthreaded hparent left
      exact ⟨fun h => absurd h hnone, fun h => absurd h.2 hnot⟩
  | some parent =>
      obtain ⟨before, after, hsplit⟩ :=
        List.append_of_mem ((ht.mem_children_iff parent right).mpr hparent)
      rw [precedingElements, List.mem_filter, hthreaded.precedingSiblings_eq ht hsplit,
        List.mem_reverse, ht.earlier_iff hsplit, and_comm]

/-- The first element on the walk back is the nearest. -/
theorem mem_take_precedingElements_iff (left right : NodeId) :
    left ∈ (t.precedingElements right).take 1 ↔ t.Lies left right .nextSibling := by
  cases hparent : t.parent? right with
  | none =>
      obtain ⟨hnone, hnot⟩ := precedingElements_of_free ht hthreaded hparent left
      exact ⟨fun h => absurd (List.mem_of_mem_take h) hnone, fun h => absurd h.2.1 hnot⟩
  | some parent =>
      obtain ⟨before, after, hsplit⟩ :=
        List.append_of_mem ((ht.mem_children_iff parent right).mpr hparent)
      rw [List.take_one, Option.mem_toList, precedingElements, List.head?_filter,
        hthreaded.precedingSiblings_eq ht hsplit, List.find?_eq_some_iff_append,
        lies_nextSibling_iff ht hsplit]
      -- What the walk passes by stands behind the element in the list.
      refine and_congr_right fun _ => ⟨?_, ?_⟩
      · rintro ⟨passed, rest, hback, hnone⟩
        refine ⟨rest.reverse, passed.reverse, ?_, fun x hx => ?_⟩
        · rw [← List.reverse_inj, hback]
          simp
        · simpa using hnone x (List.mem_reverse.mp hx)
      · rintro ⟨front, back, hbefore, hnone⟩
        refine ⟨back.reverse, front.reverse, by simp [hbefore], fun x hx => ?_⟩
        simpa using hnone x (List.mem_reverse.mp hx)

theorem mem_related_iff (left right : NodeId) (k : Combinator) :
    left ∈ t.related right k ↔ t.Lies left right k := by
  cases k with
  | descendant => exact ht.mem_ancestors_iff left right
  | child => exact Option.mem_toList
  | nextSibling => exact mem_take_precedingElements_iff ht hthreaded left right
  | subsequentSibling => exact mem_precedingElements_iff ht hthreaded left right

/-! ## The matcher -/

theorem meetsChain_iff (chain : List (Combinator × Compound)) (id : NodeId) :
    t.meetsChain chain id = true ↔ ∃ place : Nat → NodeId, place 0 = id ∧ t.Follows chain place := by
  induction chain generalizing id with
  | nil =>
      refine ⟨fun _ => ⟨fun _ => id, rfl, ?_⟩, fun _ => rfl⟩
      intro i link hlink
      cases hlink
  | cons link chain ih =>
      obtain ⟨combinator, compound⟩ := link
      rw [meetsChain, List.any_eq_true]
      constructor
      · rintro ⟨other, hrelated, hmeets⟩
        rw [Bool.and_eq_true, ih] at hmeets
        obtain ⟨hother, place, rfl, hfollows⟩ := hmeets
        -- The node goes in front of the assignment of the rest.
        refine ⟨fun i => i.casesOn id place, rfl, ?_⟩
        rw [follows_cons_iff]
        exact ⟨⟨hother, (mem_related_iff ht hthreaded _ _ _).mp hrelated⟩, hfollows⟩
      · rintro ⟨place, rfl, hfollows⟩
        obtain ⟨⟨hother, hlies⟩, hrest⟩ := (t.follows_cons_iff _ _ place).mp hfollows
        refine ⟨place 1, (mem_related_iff ht hthreaded _ _ _).mpr hlies, ?_⟩
        rw [Bool.and_eq_true, ih]
        exact ⟨hother, _, rfl, hrest⟩

theorem picks_iff_fits (s : Selector) (id : NodeId) : t.picks s id = true ↔ t.Fits s id := by
  rw [picks, Bool.and_eq_true, meetsChain_iff ht hthreaded]
  constructor
  · rintro ⟨hsubject, place, rfl, hfollows⟩
    exact ⟨place, rfl, hsubject, hfollows⟩
  · rintro ⟨place, rfl, hsubject, hfollows⟩
    exact ⟨hsubject, place, rfl, hfollows⟩

end Candidates

/-- The matcher picks out a node if elements can be assigned to the compounds of the selector.
    A text finds the elements below the document node that its selector fits, in tree order and
    each once, and finds nothing if it is no selector. -/
theorem picks_find_iff_fits {t : Tree} (ht : Grown MayHold t) :
    (∀ (s : Selector) (id : NodeId), t.picks s id = true ↔ t.Fits s id) ∧
    ∀ text : String,
      (∀ cause, Selector.ofString text = .error cause → t.find text = []) ∧
      ∀ s, Selector.ofString text = .ok s →
        (t.find text).Nodup ∧ (t.find text).Pairwise t.Precedes ∧
          ∀ x, x ∈ t.find text ↔ t.isElement x = true ∧ t.Above root x ∧ t.Fits s x := by
  have hlinked := ht.linked
  have hpicks := picks_iff_fits hlinked ht.threaded
  refine ⟨hpicks, fun text => ⟨fun cause hunread => ?_, fun s hread => ?_⟩⟩
  · rw [find, hunread]
  · rw [find, hread]
    dsimp only
    refine ⟨hlinked.nodup_elements.filter _, hlinked.pairwise_elements.filter _, fun x => ?_⟩
    rw [mem_select_iff, hlinked.mem_elements_iff ht.nested, hlinked.mem_ancestors_iff, hpicks,
      and_assoc]

theorem picks_find_backtracking :
    let t := ofSketch .html (.element { tag := "section" }
      [.element { tag := "div" } [.element { tag := "div" } [.element { tag := "p" } []]]])
    let s : Selector :=
      { subject := [.typeName "p"]
        chain := [(.descendant, [.typeName "div"]), (.child, [.typeName "section"])] }
    t.Fits s 4 ∧ t.picks s 4 = true ∧ 4 ∈ t.find "section > div p" := by
  intro t s
  have ht : Grown MayHold t := (isDocument_ofSketch .html rfl).whole.grown
  have hread : Selector.ofString "section > div p" = .ok s := by
    decide +kernel
  obtain ⟨hpicks, hfind⟩ := picks_find_iff_fits ht
  -- The nearest `div` above the paragraph is no child of the section; the next one is.
  have hfits : t.Fits s 4 := by
    refine ⟨fun | 0 => 4 | 1 => 2 | _ => 1, rfl, rfl, ?_⟩
    rintro (_ | _ | i) link hlink
    · cases hlink
      exact ⟨rfl, .tail (.single rfl) rfl⟩
    · cases hlink
      exact ⟨rfl, rfl⟩
    · cases hlink
  refine ⟨hfits, (hpicks s 4).mpr hfits, ((hfind _).2 s hread).2.2 4 |>.mpr ⟨rfl, ?_, hfits⟩⟩
  exact .tail (.tail (.tail (.single rfl) rfl) rfl) rfl

end UniqueSelector.Tree
