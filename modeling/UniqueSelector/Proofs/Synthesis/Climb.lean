/-
  UniqueSelector.Proofs.Synthesis.Climb

  The whole climb. What a level keeps and what the end needs give what the search
  answers (`climb_answers`), as long as no level on the way is mute. A mute level
  leaves an empty fragment behind, or nothing at all, and then no selector comes
  of the climb (`climb_mute`).

    * `Ascent.above` — the level after one; `advance_cases`.
    * `Climbs`, `Reaches` — one step up, and any number of them; a step up leads to
      the parent element (`Climbs.eq_above`).
    * `climb_error_of_reaches` — a climb fails with any step it comes by.

  Every step up shortens the way up from the element, so as many steps as the
  tree has nodes are enough. The inductions are on that bound.
-/

import UniqueSelector.Proofs.Synthesis.Fragments
import Mathlib.Logic.Relation

namespace UniqueSelector.Synthesis

open Selector

/-! ## From level to level -/

/-- The level above `a`, once `fragment` describes the element of `a`. -/
def Ascent.above (a : Ascent) (parent : NodeId) (fragment : String) (isUnique : Bool) : Ascent :=
  { node := parent
    below := fragment :: a.below
    depth := oneLess a.depth
    isUnique
    featureCount := 1
    toRoot := a.toRoot }

theorem advance_cases (t : Tree) (a : Ascent) (fragment : String) (isUnique goesOn : Bool) :
    (∃ parent, t.parentElement? a.node = some parent ∧
      a.advance t fragment isUnique goesOn = .climb (a.above parent fragment isUnique)) ∨
    (a.advance t fragment isUnique goesOn = .done (joinLevels (fragment :: a.below)) ∧
      (t.parentElement? a.node = none ∨ goesOn = false)) := by
  rw [Ascent.advance]
  cases hparent : t.parentElement? a.node with
  | none => exact Or.inr ⟨rfl, Or.inl rfl⟩
  | some parent =>
      dsimp only
      by_cases hgoesOn : (a.toRoot || goesOn) = true
      · rw [if_pos hgoesOn]
        exact Or.inl ⟨parent, rfl, rfl⟩
      · rw [if_neg hgoesOn]
        rw [Bool.not_eq_true, Bool.or_eq_false_iff] at hgoesOn
        exact Or.inr ⟨rfl, Or.inr hgoesOn.2⟩

/-- A step of the climb leads from one level to the next. -/
def Climbs (t : Tree) (a b : Ascent) : Prop :=
  Answers (a.step (Host.ofTree t) t) (.ok (.climb b))

/-- The climb comes by this level. -/
def Reaches (t : Tree) : Ascent → Ascent → Prop :=
  Relation.ReflTransGen (Climbs t)

/-- A step fails, or goes on with some fragment. -/
theorem step_fails_or_advances {t : Tree} {a : Ascent} (hnode : t.isElement a.node = true) :
    (∃ cause, Answers (a.step (Host.ofTree t) t) (.error cause)) ∨
      ∃ fragment isUnique goesOn,
        Answers (a.step (Host.ofTree t) t) (.ok (a.advance t fragment isUnique goesOn)) := by
  cases step_writes hnode with
  | fails cause hstep => exact Or.inl ⟨cause, hstep⟩
  | closes _ _ hstep => exact Or.inr ⟨_, _, _, hstep⟩
  | describes _ _ _ hstep => exact Or.inr ⟨_, _, _, hstep⟩

/-- A step up leads to the parent element. -/
theorem Climbs.eq_above {t : Tree} {a b : Ascent} (h : Climbs t a b)
    (hnode : t.isElement a.node = true) :
    ∃ parent fragment isUnique, t.parentElement? a.node = some parent ∧
      b = a.above parent fragment isUnique := by
  rcases step_fails_or_advances hnode with ⟨cause, hstep⟩ | ⟨fragment, isUnique, goesOn, hstep⟩
  · cases h.unique {} hstep
  · rcases advance_cases t a fragment isUnique goesOn with ⟨parent, hparent, heq⟩ | ⟨heq, -⟩
    · rw [heq] at hstep
      cases Except.ok.inj (h.unique {} hstep)
      exact ⟨parent, fragment, isUnique, hparent, rfl⟩
    · rw [heq] at hstep
      cases Except.ok.inj (h.unique {} hstep)

section Steps

variable {t : Tree} {a b : Ascent} {bound : Nat}

section Hosts

variable {σ : Type} {h : Host σ}

theorem answers_climb_climb {r : Except SynthesisError String}
    (hstep : Answers (a.step h t) (.ok (.climb b))) (hrest : Answers (climb h t bound b) r) :
    Answers (climb h t (bound + 1) a) r := by
  rw [climb]
  exact Answers.bind hstep hrest

theorem answers_climb_done {selector : String}
    (hstep : Answers (a.step h t) (.ok (.done selector))) :
    Answers (climb h t (bound + 1) a) (.ok selector) := by
  rw [climb]
  exact Answers.bind hstep (answers_pure selector)

theorem answers_climb_error {cause : SynthesisError}
    (hstep : Answers (a.step h t) (.error cause)) :
    Answers (climb h t (bound + 1) a) (.error cause) := by
  rw [climb]
  exact Answers.bind_error hstep

end Hosts

/-- The way up gets shorter by a node with every step. -/
theorem length_ancestors_above (ht : t.Linked) {parent : NodeId} {fragment : String}
    {isUnique : Bool} (hparent : t.parentElement? a.node = some parent)
    (hbound : (t.ancestors a.node).length < bound + 1) :
    (t.ancestors (a.above parent fragment isUnique).node).length < bound := by
  rw [ht.ancestors_of_parent? (parent?_of_parentElement? hparent).1, List.length_cons] at hbound
  exact Nat.lt_of_succ_lt_succ hbound

/-- The warnings given before have no part in what a climb comes to. -/
theorem exists_answers_climb (hnode : t.isElement a.node = true) :
    ∃ r, Answers (climb (Host.ofTree t) t bound a) r := by
  induction bound generalizing a with
  | zero => exact ⟨_, answers_pure _⟩
  | succ bound ih =>
      rcases step_fails_or_advances hnode with ⟨cause, hstep⟩ | ⟨fragment, isUnique, goesOn, hstep⟩
      · exact ⟨_, answers_climb_error hstep⟩
      · rcases advance_cases t a fragment isUnique goesOn with ⟨parent, hparent, heq⟩ | ⟨heq, -⟩
        · rw [heq] at hstep
          have hnext : t.isElement (a.above parent fragment isUnique).node = true :=
            (parent?_of_parentElement? hparent).2
          obtain ⟨r, hrest⟩ := ih hnext
          exact ⟨r, answers_climb_climb hstep hrest⟩
        · rw [heq] at hstep
          exact ⟨_, answers_climb_done hstep⟩

end Steps

/-! ## Where a step fails -/

/-- A climb that comes by a step that fails fails with it. -/
theorem climb_error_of_reaches {t : Tree} (ht : t.Linked) {a b : Ascent} (hreaches : Reaches t a b)
    {cause : SynthesisError} (hstep : Answers (b.step (Host.ofTree t) t) (.error cause))
    {bound : Nat} (hbound : (t.ancestors a.node).length < bound)
    (hnode : t.isElement a.node = true) :
    Answers (climb (Host.ofTree t) t bound a) (.error cause) := by
  induction hreaches using Relation.ReflTransGen.head_induction_on generalizing bound with
  | refl =>
      obtain ⟨bound, rfl⟩ := Nat.exists_eq_succ_of_ne_zero (Nat.ne_zero_of_lt hbound)
      exact answers_climb_error hstep
  | @head a next hclimbs _ ih =>
      obtain ⟨bound, rfl⟩ := Nat.exists_eq_succ_of_ne_zero (Nat.ne_zero_of_lt hbound)
      obtain ⟨parent, fragment, isUnique, hparent, rfl⟩ := hclimbs.eq_above hnode
      exact answers_climb_climb hclimbs (ih (length_ancestors_above ht hparent hbound)
        (parent?_of_parentElement? hparent).2)

/-! ## Where no level is mute -/

/-- What holds at a level is kept by every step (`hclimb`) and enough at the end (`hdone`). Then
    the search answers as the end says, unless NUL stands in the way. -/
theorem climb_answers {t : Tree} (ht : t.Linked) (hsize : t.FitsMemory) (inv : Ascent → Prop)
    (post : String → Prop)
    (hclimb : ∀ a fragment isUnique c parent, inv a → Found t a fragment isUnique c →
      t.parentElement? a.node = some parent → inv (a.above parent fragment isUnique))
    (hdone : ∀ a fragment isUnique c, inv a → Found t a fragment isUnique c →
      t.parentElement? a.node = none ∨ isUnique = true → post (joinLevels (fragment :: a.below)))
    {bound : Nat} {a : Ascent} (hbound : (t.ancestors a.node).length < bound)
    (hnode : t.isElement a.node = true) (ha : inv a) (hvocal : ∀ b, Reaches t a b → ¬ Mute t b) :
    (∃ cause, Answers (climb (Host.ofTree t) t bound a) (.error (.escape cause)) ∧ ¬ t.NulFree) ∨
    ∃ selector, Answers (climb (Host.ofTree t) t bound a) (.ok selector) ∧ post selector := by
  induction bound generalizing a with
  | zero => cases hbound
  | succ bound ih =>
      have hself := hvocal a Relation.ReflTransGen.refl
      cases step_cases ht hsize hnode with
      | @escapes cause e hstep he hnul =>
          exact Or.inl ⟨cause, answers_climb_error hstep, fun hfree => hnul (hfree a.node e he)⟩
      | @finds fragment isUnique goesOn c hstep hfound hends _ =>
          rcases advance_cases t a fragment isUnique goesOn with
            ⟨parent, hparent, hadvance⟩ | ⟨hadvance, hend⟩
          · -- One level up: what the climb comes by from there, it comes by from here.
            rw [hadvance] at hstep
            have hnext := ih (length_ancestors_above ht hparent hbound)
              (parent?_of_parentElement? hparent).2
              (hclimb a fragment isUnique c parent ha hfound hparent)
              (fun b hb => hvocal b (Relation.ReflTransGen.head hstep hb))
            rcases hnext with ⟨cause, hrest, hnul⟩ | ⟨selector, hrest, hpost⟩
            · exact Or.inl ⟨cause, answers_climb_climb hstep hrest, hnul⟩
            · exact Or.inr ⟨selector, answers_climb_climb hstep hrest, hpost⟩
          · rw [hadvance] at hstep
            exact Or.inr ⟨_, answers_climb_done hstep,
              hdone a fragment isUnique c ha hfound (hend.imp_right hends)⟩
      | refuses hmute _ => exact absurd hmute hself
      | blanks hmute _ => exact absurd hmute hself

/-! ## Where a level is mute -/

/-- An empty fragment stands behind fragments that can be read. -/
def Gapped (fragments : List String) : Prop :=
  ∃ read rest cs, fragments = read ++ "" :: rest ∧ ReadAs read cs

theorem Gapped.cons {t : Tree} {a : Ascent} {fragment : String} {isUnique : Bool} {c : Compound}
    {fragments : List String} (h : Gapped fragments) (hfound : Found t a fragment isUnique c) :
    Gapped (fragment :: fragments) := by
  obtain ⟨read, rest, cs, rfl, hread⟩ := h
  exact ⟨fragment :: read, rest, c :: cs, rfl, List.Forall₂.cons hfound.reads hread⟩

theorem gapped_blank (fragments : List String) : Gapped ("" :: fragments) :=
  ⟨[], fragments, [], rfl, List.Forall₂.nil⟩

theorem Gapped.unread {fragments : List String} (h : Gapped fragments) :
    ∃ cause, Selector.ofString (joinLevels fragments) = .error cause := by
  obtain ⟨read, rest, cs, rfl, hread⟩ := h
  exact ofString_joinLevels_gap hread

/-- The search ends in an error, or in a text that is no selector. -/
def Fails (x : Search WarningLog String) : Prop :=
  (∃ cause, Answers x (.error cause)) ∨
    ∃ selector cause, Answers x (.ok selector) ∧ Selector.ofString selector = .error cause

theorem fails_climb {t : Tree} {a b : Ascent} {bound : Nat} (hstep : Climbs t a b)
    (h : Fails (climb (Host.ofTree t) t bound b)) :
    Fails (climb (Host.ofTree t) t (bound + 1) a) := by
  rcases h with ⟨cause, hrest⟩ | ⟨selector, cause, hrest, hunread⟩
  · exact Or.inl ⟨cause, answers_climb_climb hstep hrest⟩
  · exact Or.inr ⟨selector, cause, answers_climb_climb hstep hrest, hunread⟩

/-- A gap stays: the climb ends with it, or fails further up. -/
theorem fails_advance {t : Tree} {a : Ascent} {bound : Nat} {fragment : String}
    {isUnique goesOn : Bool}
    (hstep : Answers (a.step (Host.ofTree t) t) (.ok (a.advance t fragment isUnique goesOn)))
    (hgap : Gapped (fragment :: a.below))
    (hrest : ∀ parent, t.parentElement? a.node = some parent →
      Fails (climb (Host.ofTree t) t bound (a.above parent fragment isUnique))) :
    Fails (climb (Host.ofTree t) t (bound + 1) a) := by
  rcases advance_cases t a fragment isUnique goesOn with ⟨parent, hparent, hadvance⟩ | ⟨hadvance, -⟩
  · rw [hadvance] at hstep
    exact fails_climb hstep (hrest parent hparent)
  · rw [hadvance] at hstep
    obtain ⟨cause, hunread⟩ := hgap.unread
    exact Or.inr ⟨_, cause, answers_climb_done hstep, hunread⟩

section Mute

variable {t : Tree} (ht : t.Linked) (hsize : t.FitsMemory)

include ht hsize

theorem climb_gapped {bound : Nat} {a : Ascent} (hbound : (t.ancestors a.node).length < bound)
    (hnode : t.isElement a.node = true) (hgap : Gapped a.below) :
    Fails (climb (Host.ofTree t) t bound a) := by
  induction bound generalizing a with
  | zero => cases hbound
  | succ bound ih =>
      have hrest : ∀ {fragment : String} {isUnique : Bool}, Gapped (fragment :: a.below) →
          ∀ parent, t.parentElement? a.node = some parent →
            Fails (climb (Host.ofTree t) t bound (a.above parent fragment isUnique)) := by
        intro fragment isUnique hgap parent hparent
        exact ih (length_ancestors_above ht hparent hbound)
          (parent?_of_parentElement? hparent).2 hgap
      cases step_cases ht hsize hnode with
      | escapes hstep _ _ => exact Or.inl ⟨_, answers_climb_error hstep⟩
      | refuses _ hstep => exact Or.inl ⟨_, answers_climb_error hstep⟩
      | finds hstep hfound _ _ =>
          exact fails_advance hstep (hgap.cons hfound) (hrest (hgap.cons hfound))
      | blanks _ hstep =>
          exact fails_advance hstep (gapped_blank a.below) (hrest (gapped_blank a.below))

theorem fails_of_mute {bound : Nat} {a : Ascent} (hbound : (t.ancestors a.node).length < bound)
    (hnode : t.isElement a.node = true) (hmute : Mute t a) :
    Fails (climb (Host.ofTree t) t bound a) := by
  obtain ⟨bound, rfl⟩ := Nat.exists_eq_succ_of_ne_zero (Nat.ne_zero_of_lt hbound)
  cases step_cases ht hsize hnode with
  | escapes hstep _ _ => exact Or.inl ⟨_, answers_climb_error hstep⟩
  | refuses _ hstep => exact Or.inl ⟨_, answers_climb_error hstep⟩
  | finds _ _ _ hvocal => exact absurd hmute hvocal
  | blanks _ hstep =>
      -- The gap is behind the level above from the start.
      refine fails_advance hstep (gapped_blank a.below) fun parent hparent => ?_
      exact climb_gapped ht hsize (length_ancestors_above ht hparent hbound)
        (parent?_of_parentElement? hparent).2 (gapped_blank a.below)

/-- A climb that comes by a mute level fails. -/
theorem climb_mute {bound : Nat} {a b : Ascent} (hreaches : Reaches t a b) (hmute : Mute t b)
    (hbound : (t.ancestors a.node).length < bound) (hnode : t.isElement a.node = true) :
    Fails (climb (Host.ofTree t) t bound a) := by
  induction hreaches using Relation.ReflTransGen.head_induction_on generalizing bound with
  | refl => exact fails_of_mute ht hsize hbound hnode hmute
  | @head a next hstep _ ih =>
      obtain ⟨bound, rfl⟩ := Nat.exists_eq_succ_of_ne_zero (Nat.ne_zero_of_lt hbound)
      obtain ⟨parent, fragment, isUnique, hparent, rfl⟩ := hstep.eq_above hnode
      exact fails_climb hstep (ih (length_ancestors_above ht hparent hbound)
        (parent?_of_parentElement? hparent).2)

end Mute

end UniqueSelector.Synthesis
