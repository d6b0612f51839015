/-
  UniqueSelector.Proofs.Synthesis.Numbering

  The number that is written for the place of an element, in a tree that any calls
  have built and whatever the host answers. A number is written only where the
  element has others beside it, and then the element stands among them itself, so
  the number counts from one.

    * `run_tieBreaker_cases` — what is written, with any host.
    * `Tree.Sheltered.placeFragment_eq` — the number is the place of the element.
    * `Numbered`, `numbered_after` — places in trees built in any way.
-/

import UniqueSelector.Proofs.Dom.Relinking
import UniqueSelector.Proofs.Synthesis.Level

namespace UniqueSelector

open Text

namespace Synthesis

/-! ## What is written -/

/-- The condition that an element stands at this place. -/
def positionText (k : Nat) : String :=
  s!":nth-child({k})"

theorem positionText_injective : Function.Injective positionText := by
  intro j k h
  have hchars := congrArg String.toList h
  rw [positionText, positionText, toList_position, toList_position, List.append_cancel_left_eq,
    List.append_cancel_right_eq] at hchars
  -- Digits read back as the number they were written for.
  have hread := digits?_toDigits j
  rw [hchars, digits?_toDigits] at hread
  exact (Option.some.inj hread).symm

variable {σ : Type} (h : Host σ) {t : Tree} {node : NodeId}

/-- Behind a fragment stands the place or nothing, and nothing where there are no others. -/
theorem run_tieBreaker_cases {fragment place : String} {state : σ}
    (hrun : ((tieBreaker h t node fragment).run.run state).1 = .ok place) :
    place = "" ∨ (others t node ≠ [] ∧ place = placeFragment t node) := by
  change ((picksAny h fragment (others t node) >>= _).run.run state).1 = _ at hrun
  cases hpicks : (picksAny h fragment (others t node)).run.run state with
  | mk answer state' =>
      cases answer with
      | error cause =>
          rw [run_bind_error hpicks] at hrun
          cases hrun
      | ok shared =>
          rw [run_bind_ok hpicks] at hrun
          cases shared with
          | false => exact Or.inl (Except.ok.inj hrun).symm
          | true =>
              refine Or.inr ⟨?_, (Except.ok.inj hrun).symm⟩
              -- Where nobody is asked about, nobody is picked out.
              intro hothers
              rw [hothers] at hpicks
              cases congrArg Prod.fst hpicks

end Synthesis

/-! ## The place -/

namespace Tree

open Synthesis

variable {t : Tree} (ht : t.Sheltered) {id parent : NodeId}

namespace Sheltered

include ht

theorem exists_elementIndex? (hid : t.isElement id = true) (hparent : t.parent? id = some parent) :
    ∃ k, t.elementIndex? id = some k ∧ 1 ≤ k ∧ k ≤ (t.elementChildren parent).length := by
  obtain ⟨k, hk, hlt⟩ := ht.exists_index hid hparent
  refine ⟨k + 1, ?_, Nat.le_add_left 1 k, hlt⟩
  rw [elementIndex?_eq hparent, hk, Option.map_some]

theorem mem_elementSiblings (hid : t.isElement id = true)
    (hparent : t.parentElement? id = some parent) : id ∈ t.elementSiblings id := by
  rw [elementSiblings_eq hparent]
  exact ht.mem_elementChildren hid (parent?_of_parentElement? hparent).1

/-- Below a parent element the place that is written is the one the element has. -/
theorem placeFragment_eq (hid : t.isElement id = true)
    (hparent : t.parentElement? id = some parent) :
    ∃ k, t.elementIndex? id = some k ∧ 1 ≤ k ∧ placeFragment t id = positionText k := by
  have hchild := (parent?_of_parentElement? hparent).1
  obtain ⟨k, hk, -⟩ := ht.exists_index hid hchild
  refine ⟨k + 1, ?_, Nat.le_add_left 1 k, ?_⟩
  · rw [elementIndex?_eq hchild, hk, Option.map_some]
  · rw [placeFragment, elementSiblings_eq hparent, hk]
    rfl

end Sheltered

end Tree

namespace Synthesis

/-- Where an element stands, and what is written for it, whoever answers. -/
structure Numbered (t : Tree) : Prop where
  elementIndex? : ∀ id parent, t.isElement id = true → t.parent? id = some parent →
    ∃ k, t.elementIndex? id = some k ∧ 1 ≤ k ∧ k ≤ (t.elementChildren parent).length
  mem_elementSiblings : ∀ id parent, t.isElement id = true → t.parentElement? id = some parent →
    id ∈ t.elementSiblings id
  place : ∀ {σ : Type} (h : Host σ) (id : NodeId) (fragment place : String) (state : σ),
    t.isElement id = true → ((tieBreaker h t id fragment).run.run state).1 = .ok place →
      place = "" ∨ ∃ k, t.elementIndex? id = some k ∧ 1 ≤ k ∧ place = positionText k
  place_ne : ∀ {σ : Type} (h : Host σ) (id : NodeId) (fragment : String) (state : σ),
    t.isElement id = true → ((tieBreaker h t id fragment).run.run state).1 ≠ .ok ":nth-child(0)"

theorem numbered_of_sheltered {t : Tree} (ht : t.Sheltered) : Numbered t := by
  have hplace : ∀ {σ : Type} (h : Host σ) (id : NodeId) (fragment place : String) (state : σ),
      t.isElement id = true → ((tieBreaker h t id fragment).run.run state).1 = .ok place →
        place = "" ∨ ∃ k, t.elementIndex? id = some k ∧ 1 ≤ k ∧ place = positionText k := by
    intro σ h id fragment place state hid hrun
    rcases run_tieBreaker_cases h hrun with hempty | ⟨hothers, rfl⟩
    · exact Or.inl hempty
    · obtain ⟨parent, hparent⟩ := parentElement?_of_others hothers
      exact Or.inr (ht.placeFragment_eq hid hparent)
  exact
    { elementIndex? := fun _ _ hid hparent => ht.exists_elementIndex? hid hparent
      mem_elementSiblings := fun _ _ hid hparent => ht.mem_elementSiblings hid hparent
      place := hplace
      place_ne := by
        intro σ h id fragment state hid hrun
        rcases hplace h id fragment _ state hid hrun with hempty | ⟨k, -, hk, hzero⟩
        · exact absurd hempty (by decide)
        · have hnum : positionText 0 = positionText k := hzero
          rw [← positionText_injective hnum] at hk
          omega }

/-- However often nodes are linked, links lead to nodes, a node stands in the list of its parent,
    and an element is numbered from one among the others there. -/
theorem numbered_after (markup : Markup) (calls : List Tree.Call) :
    let t := (Tree.empty markup).after calls
    (∀ id other, t.LinksTo id other → id < t.size ∧ other < t.size) ∧
      (∀ id parent, t.parent? id = some parent → id ∈ t.children parent) ∧ Numbered t := by
  intro t
  have ht := Tree.sheltered_after markup calls
  exact ⟨fun id other hlink => ⟨hlink.lt_size_left, ht.inRange id other hlink⟩, ht.mem_children,
    numbered_of_sheltered ht⟩

/-- The item 2 is appended to the second list and again to the first, and the item 3 to itself. -/
theorem numbered_after_relinked :
    let named (tag : String) : NodeKind := .element { tag }
    let calls : List Tree.Call :=
      [.addChild 0 (named "ul"), .addChild 1 (named "li"), .addChild 1 (named "li"),
        .addChild 0 (named "ol"), .append 4 2, .append 1 2, .append 3 3, .append 7 2]
    let t := (Tree.empty .html).after calls
    t.children 1 = [2, 3, 2] ∧ t.children 4 = [2] ∧ t.parent? 3 = some 3 ∧
      t.previous? 2 = some 3 ∧ t.next? 3 = some 2 ∧ 2 ∈ t.elementSiblings 2 ∧
      ∃ k, t.elementIndex? 2 = some k ∧ 1 ≤ k ∧ k ≤ 3 := by
  intro named calls t
  obtain ⟨-, -, hnumbered⟩ := numbered_after .html calls
  have hindex := hnumbered.elementIndex? 2 1 (by decide) (by decide)
  have hlength : (t.elementChildren 1).length = 3 := by decide
  rw [hlength] at hindex
  exact ⟨by decide, by decide, by decide, by decide, by decide,
    hnumbered.mem_elementSiblings 2 1 (by decide) (by decide), hindex⟩

end Synthesis

end UniqueSelector
