/-
  UniqueSelector.Proofs.Synthesis.Fragments

  What one level writes, in any tree: the id that stands for its element, or else
  the first features of the element, with its place behind them where a sibling
  shares them. Nothing here asks whether the fragment reads as a selector.

    * `IdClosed`, `Suffix`, `Fragment` — the fragment of an element, said through
      what the host finds and not through the questions it is asked.
    * `Fragment.unique` — there is one at most.
    * `step_writes` — a step fails, or goes on or ends with this fragment.
-/

import UniqueSelector.Proofs.Synthesis.Level

namespace UniqueSelector.Synthesis

open Selector

/-! ## Fragments -/

/-- An id stands for the element. -/
def IdClosed (t : Tree) (node : NodeId) : Prop :=
  ∃ id selector, OwnId t node id selector

/-- What is written behind the features of an element: its place where another element sibling
    is picked out by them too, nothing where none is. -/
inductive Suffix (t : Tree) (node : NodeId) (text : String) : String → Prop
  | shared {sibling : NodeId} (hsibling : sibling ∈ others t node)
      (hpicked : t.check sibling text = .ok true) : Suffix t node text (placeFragment t node)
  | alone (hnone : ∀ sibling ∈ others t node, t.check sibling text = .ok false) :
      Suffix t node text ""

/-- The fragment of an element of which `budget` features are named. -/
inductive Fragment (t : Tree) (node : NodeId) (budget : Nat) : String → Prop
  | ownId {id selector : String} (hown : OwnId t node id selector) : Fragment t node budget selector
  | features {p : Profile} {text place : String} (hopen : ¬ IdClosed t node)
      (hp : Profile.ofNode? t node = .ok (some p)) (htext : p.describe budget = .ok text)
      (hplace : Suffix t node text place) : Fragment t node budget (text ++ place)

theorem not_idClosed {t : Tree} {node : NodeId} (h : ∀ id selector, ¬ OwnId t node id selector) :
    ¬ IdClosed t node := by
  rintro ⟨id, selector, hown⟩
  exact h id selector hown

theorem OwnId.selector_unique {t : Tree} {node : NodeId} {id id' selector selector' : String}
    (h : OwnId t node id selector) (h' : OwnId t node id' selector') : selector = selector' := by
  obtain ⟨e, he, hselector⟩ := h'.written
  rw [hselector, h.selector_eq h'.has he]

theorem Suffix.unique {t : Tree} {node : NodeId} {text place place' : String}
    (h : Suffix t node text place) (h' : Suffix t node text place') : place = place' := by
  -- What one sibling is told by the host contradicts what all of them are told.
  have hexcluded : ∀ sibling ∈ others t node, t.check sibling text = .ok true →
      ¬ ∀ sibling ∈ others t node, t.check sibling text = .ok false := by
    intro sibling hsibling hpicked hnone
    rw [hnone sibling hsibling] at hpicked
    cases hpicked
  cases h with
  | shared hsibling hpicked =>
      cases h' with
      | shared _ _ => rfl
      | alone hnone => exact absurd hnone (hexcluded _ hsibling hpicked)
  | alone hnone =>
      cases h' with
      | shared hsibling hpicked => exact absurd hnone (hexcluded _ hsibling hpicked)
      | alone _ => rfl

theorem Fragment.unique {t : Tree} {node : NodeId} {budget : Nat} {fragment fragment' : String}
    (h : Fragment t node budget fragment) (h' : Fragment t node budget fragment') :
    fragment = fragment' := by
  cases h with
  | ownId hown =>
      cases h' with
      | ownId hown' => exact hown.selector_unique hown'
      | features hopen _ _ _ => exact absurd ⟨_, _, hown⟩ hopen
  | features hopen hp htext hplace =>
      cases h' with
      | ownId hown => exact absurd ⟨_, _, hown⟩ hopen
      | features _ hp' htext' hplace' =>
          rw [hp] at hp'
          cases hp'
          rw [htext] at htext'
          cases htext'
          rw [hplace.unique hplace']

/-- The fragment of an element that an id stands for finds that element alone. -/
theorem Fragment.length_find_of_idClosed {t : Tree} {node : NodeId} {budget : Nat}
    {fragment : String} (h : Fragment t node budget fragment) (hclosed : IdClosed t node) :
    (t.find fragment).length = 1 := by
  cases h with
  | ownId hown => exact hown.found
  | features hopen _ _ _ => exact absurd hclosed hopen

/-! ## A step -/

/-- Asking for the place of an element fails or gives the suffix. -/
theorem tieBreaker_cases (t : Tree) (node : NodeId) (text : String) :
    (∃ cause, Answers (tieBreaker (Host.ofTree t) t node text) (.error cause)) ∨
      ∃ place, Answers (tieBreaker (Host.ofTree t) t node text) (.ok place) ∧
        Suffix t node text place := by
  cases hread : Selector.ofString text with
  | error cause =>
      -- Nothing is asked where there are no others; else the first of them is a failure.
      have hanswer := answers_tieBreaker_unread t node hread
      split at hanswer
      · rename_i hothers
        refine Or.inr ⟨"", hanswer, Suffix.alone ?_⟩
        rw [hothers]
        simp
      · exact Or.inl ⟨_, hanswer⟩
  | ok s =>
      have hanswer := answers_tieBreaker t node hread
      refine Or.inr ⟨_, hanswer, ?_⟩
      rw [tie]
      split
      · rename_i hany
        obtain ⟨sibling, hsibling, hpicked⟩ := List.any_eq_true.mp hany
        exact Suffix.shared hsibling (by rw [check_of_reads t hread, hpicked])
      · rename_i hany
        refine Suffix.alone fun sibling hsibling => ?_
        rw [check_of_reads t hread]
        simp only [List.any_eq_true, not_exists, not_and, Bool.not_eq_true] at hany
        rw [hany sibling hsibling]

/-- All that a step at an element writes: nothing where it fails, the selector of its id, or its
    features and place, with the mark of the document element where it is due. -/
inductive StepWrites (t : Tree) (a : Ascent) : Prop
  | fails (cause : SynthesisError) (hstep : Answers (a.step (Host.ofTree t) t) (.error cause))
  | closes {selector : String} (hclosed : IdClosed t a.node)
      (hfragment : Fragment t a.node (max a.featureCount 1) selector)
      (hstep : Answers (a.step (Host.ofTree t) t) (.ok (a.advance t selector true false)))
  | describes {fragment : String} {isUnique : Bool} (hopen : ¬ IdClosed t a.node)
      (hfragment : Fragment t a.node (max a.featureCount 1) fragment)
      (hunique : isUnique = (a.isUnique || (t.find fragment).length == 1))
      (hstep : Answers (a.step (Host.ofTree t) t) (.ok (a.advance t
        (topMark t a.node fragment isUnique) isUnique (a.depth != 0 || !isUnique))))

theorem stepWrites_of_profile {t : Tree} {a : Ascent} {p : Profile}
    (hp : Profile.ofNode? t a.node = .ok (some p))
    (hid : Answers (idSelector? (Host.ofTree t) t a.node) (.ok none))
    (hopen : ¬ IdClosed t a.node) : StepWrites t a := by
  cases htext : p.describe (max a.featureCount 1) with
  | error cause => exact StepWrites.fails _ (answers_step_describeError hid hp htext)
  | ok text =>
      rcases tieBreaker_cases t a.node text with ⟨cause, hanswer⟩ | ⟨place, hanswer, hplace⟩
      · exact StepWrites.fails cause (answers_step_tieError hid hp htext hanswer)
      · have hlevel := answers_describeLevel t htext hanswer rfl rfl
        exact StepWrites.describes hopen (Fragment.features hopen hp htext hplace) rfl
          (answers_step_described hid hp hlevel)

theorem step_writes {t : Tree} {a : Ascent} (hnode : t.isElement a.node = true) :
    StepWrites t a := by
  obtain ⟨e, he⟩ := (t.isElement_iff a.node).mp hnode
  cases answers_idSelector? t a.node with
  | escapes hid _ _ => exact StepWrites.fails _ (answers_step_idError hid)
  | @own id selector hid hown =>
      exact StepWrites.closes ⟨id, selector, hown⟩ (Fragment.ownId hown) (answers_step_ownId hid)
  | none hid hnone =>
      have hopen := not_idClosed hnone
      cases hp : Profile.ofNode? t a.node with
      | error cause => exact StepWrites.fails _ (answers_step_profileError hid hp)
      | ok p? =>
          cases p? with
          | none => exact absurd hp (Profile.ofNode?_ne_none he)
          | some p => exact stepWrites_of_profile hp hid hopen

end UniqueSelector.Synthesis
