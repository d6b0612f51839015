/-
  UniqueSelector.Proofs.Synthesis.Budget

  What a larger budget of features does to the description of an element. It
  looks at the features in the same order and goes on where a smaller one stops,
  so it only adds conditions, and what it finds the smaller one finds too.

    * `Profile.exists_gather_of_le` — what fails within a budget fails within
      every larger one.
    * `Profile.compoundOf_sublist` — more features, the same conditions and more.
    * `Profile.gather_saturates` — a budget for all features is as good as any.
    * `describe_narrows` — two budgets at one element.

  The tag goes to the front whenever it comes, so the conditions of the smaller
  budget are no prefix of the others, but they keep their order among them.
-/

import Mathlib.Data.List.Flatten
import UniqueSelector.Proofs.Selector.Spelling
import UniqueSelector.Proofs.Synthesis.Shape

namespace UniqueSelector

open Text Identifier Selector

namespace Synthesis

namespace Profile

/-! ## Two budgets -/

/-- A smaller budget looks at no feature that a larger one does not look at. -/
theorem exists_gather_of_le {p : Profile} {features : List Feature} {j k : Nat} (hjk : j ≤ k)
    {fragments result : List String} (h : p.gather features k fragments = .ok result)
    (fragments' : List String) : ∃ result', p.gather features j fragments' = .ok result' := by
  induction features generalizing j k fragments fragments' with
  | nil => exact ⟨fragments', rfl⟩
  | cons f rest ih =>
      cases j with
      | zero => exact ⟨fragments', rfl⟩
      | succ j =>
          obtain ⟨k, rfl⟩ := Nat.exists_eq_add_of_le' (Nat.lt_of_lt_of_le j.succ_pos hjk)
          rcases gather_cases h with ⟨hsilent, hrest⟩ | ⟨text, hf, hne, hrest⟩
          · rw [gather_silent hsilent]
            exact ih hjk hrest fragments'
          · rw [gather_some hf hne]
            exact ih (Nat.le_of_succ_le_succ hjk) hrest (place fragments' text)

theorem exists_describe_of_le {p : Profile} {j k : Nat} (hjk : j ≤ k) {text : String}
    (h : p.describe k = .ok text) : ∃ text', p.describe j = .ok text' := by
  rw [describe] at h
  obtain ⟨result, hresult, -⟩ := map_eq_ok h
  obtain ⟨result', hresult'⟩ := exists_gather_of_le hjk hresult []
  rw [describe, hresult']
  exact ⟨_, rfl⟩

/-- A budget that is not spent before the features end does not count. -/
theorem gather_saturates (p : Profile) (features : List Feature) {j k : Nat}
    (hj : features.length ≤ j) (hk : features.length ≤ k) (fragments : List String) :
    p.gather features j fragments = p.gather features k fragments := by
  induction features generalizing j k fragments with
  | nil => rw [gather, gather]
  | cons f rest ih =>
      rw [List.length_cons] at hj hk
      obtain ⟨j, rfl⟩ := Nat.exists_eq_add_of_le' (Nat.lt_of_lt_of_le rest.length.succ_pos hj)
      obtain ⟨k, rfl⟩ := Nat.exists_eq_add_of_le' (Nat.lt_of_lt_of_le rest.length.succ_pos hk)
      by_cases hsilent : p.Silent f
      · rw [gather_silent hsilent, gather_silent hsilent]
        exact ih (Nat.le_of_succ_le hj) (Nat.le_of_succ_le hk) fragments
      · cases hf : f.fragment? p with
        | error cause => rw [gather_error hf, gather_error hf]
        | ok text? =>
            cases text? with
            | none => exact absurd (Or.inl hf) hsilent
            | some text =>
                have hne : text ≠ "" := by
                  rintro rfl
                  exact hsilent (Or.inr hf)
                rw [gather_some hf hne, gather_some hf hne]
                exact ih (Nat.le_of_succ_le_succ hj) (Nat.le_of_succ_le_succ hk) _

theorem taken_prefix (p : Profile) {j k : Nat} (hjk : j ≤ k) : p.taken j <+: p.taken k :=
  List.take_prefix_take_left hjk

/-- Conditions stay, and stay in their order, when features are added. -/
theorem compoundOf_sublist (p : Profile) (n : String) {features features' : List Feature}
    (h : features.Sublist features') :
    (p.compoundOf n features).Sublist (p.compoundOf n features') := by
  rw [compoundOf, compoundOf]
  refine List.Sublist.append ?_ ((h.filter _).flatMap _)
  split
  · rename_i htag
    rw [if_pos (h.subset htag)]
  · exact List.nil_sublist _

/-- No feature names a type besides the tag name. -/
theorem Tells.not_isType {p : Profile} {x : SimpleSelector} (h : p.Tells x) : ¬ x.IsType := by
  cases h with
  | value => exact id
  | «class» => exact id
  | link => exact id

theorem Says.type_first {p : Profile} {n : String} {typed : Bool} {text : List Char} {c : Compound}
    (h : p.Says n typed text c) : ∀ x ∈ c.tail, ¬ x.IsType := by
  cases h with
  | conditions _ htells => exact fun x hx => (htells x (List.mem_of_mem_tail hx)).not_isType
  | typed _ _ htells => exact fun x hx => (htells x hx).not_isType

end Profile

/-! ## One compound -/

/-- The text is one compound, with a type in the first place at most, and picks out the node. -/
structure DescribedBy (t : Tree) (node : NodeId) (text : String) (c : Compound) : Prop where
  reads : Selector.ofString text = .ok { subject := c }
  type_first : ∀ x ∈ c.tail, ¬ x.IsType
  picked : t.check node text = .ok true

section Budgets

variable {t : Tree} {node : NodeId} {p : Profile} (hp : Profile.ofNode? t node = .ok (some p))
  (htag : p.element.tag ≠ "")

include hp htag

theorem describedBy_of_describe {budget : Nat} (hbudget : 0 < budget) {text : String}
    (htext : p.describe budget = .ok text) :
    DescribedBy t node text (p.compoundOf (p.element.selectorName t.markup) (p.taken budget)) := by
  obtain ⟨-, hdescribes⟩ := Profile.describes_of_ofNode? hp
  have hsays := Profile.says_describe hdescribes htext
  have hne : text.toList ≠ [] := by
    simpa using Profile.describe_ne_empty hp htag hbudget htext
  have hcompound := hsays.compoundText hne
  have hread := ofString_compound hcompound
  exact
    { reads := hread
      type_first := hsays.type_first
      picked := by rw [check_compound t hcompound, hsays.meetsAll hp] }

/-- A larger budget describes the element by the conditions of a smaller one, in their order, and
    more, so it finds nothing that the smaller one does not find. Where it can be written, so can
    the smaller one. There are seven features, and beyond that budgets make no difference. -/
theorem describe_narrows {j k : Nat} (hj : 1 ≤ j) (hjk : j ≤ k) {wide : String}
    (hwide : p.describe k = .ok wide) :
    (∃ narrow few many, p.describe j = .ok narrow ∧ DescribedBy t node narrow few ∧
      DescribedBy t node wide many ∧ few.Sublist many ∧
      (t.find wide).Sublist (t.find narrow)) ∧
    ∀ budget, 7 ≤ budget → p.describe budget = p.describe 7 := by
  refine ⟨?_, fun budget hbudget => ?_⟩
  · obtain ⟨narrow, hnarrow⟩ := Profile.exists_describe_of_le hjk hwide
    have hfew := describedBy_of_describe hp htag hj hnarrow
    have hmany := describedBy_of_describe hp htag (Nat.le_trans hj hjk) hwide
    have hsublist := p.compoundOf_sublist (p.element.selectorName t.markup)
      (p.taken_prefix hjk).sublist
    refine ⟨narrow, _, _, hnarrow, hfew, hmany, hsublist, ?_⟩
    rw [find_of_reads t hmany.reads, find_of_reads t hfew.reads, Tree.select, Tree.select]
    -- Fewer conditions are met by more elements, and both lists are in tree order.
    apply List.monotone_filter_right
    intro x hx
    rw [t.picks_compound, Tree.meetsAll] at hx ⊢
    split at hx
    · cases hx
    · rw [List.all_eq_true] at hx ⊢
      exact fun y hy => hx y (hsublist.subset hy)
  · rw [Profile.describe, Profile.describe,
      p.gather_saturates Feature.all hbudget (Nat.le_refl 7)]

end Budgets

/-- The role comes first, and the tag name in front of it with the second feature. -/
theorem describe_narrows_late_tag :
    let e : Element :=
      { tag := "input", attributes := .ofList [("type", "text"), ("role", "search")] }
    let t := Tree.ofSketch .html (.element { tag := "form" } [.element e []])
    let p : Profile := { element := e, tag := "input", distinctClasses := [] }
    Profile.ofNode? t 2 = .ok (some p) ∧ p.element.tag ≠ "" ∧
      p.describe 2 = .ok "input[type=\"text\"][role=\"search\"]" ∧
      ∃ narrow few many, p.describe 1 = .ok narrow ∧ DescribedBy t 2 narrow few ∧
        DescribedBy t 2 "input[type=\"text\"][role=\"search\"]" many ∧ few.Sublist many ∧
        (t.find "input[type=\"text\"][role=\"search\"]").Sublist (t.find narrow) := by
  intro e t p
  have hp : Profile.ofNode? t 2 = .ok (some p) := by
    subst p t e
    decide +kernel
  have htag : p.element.tag ≠ "" := by decide
  have hwide : p.describe 2 = .ok "input[type=\"text\"][role=\"search\"]" := by
    subst p e
    decide +kernel
  exact ⟨hp, htag, hwide, (describe_narrows hp htag (by decide) (by decide) hwide).1⟩

end Synthesis

end UniqueSelector
