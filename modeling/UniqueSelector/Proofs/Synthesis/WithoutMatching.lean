/-
  UniqueSelector.Proofs.Synthesis.WithoutMatching

  The search on a host that finds elements and cannot check a single one. Such a
  host is asked what it cannot answer at the first level where siblings are to be
  told apart, and the search fails there; a search that comes by no such level
  does not notice.

    * `NeedsMatching` — a level where a single element is checked.
    * `step_withoutMatching` — the step lemma: it fails for want of an answer, or
      answers as it does on the whole host.
    * `climb_noCapability`, `climb_withoutMatching` — the run lemmas, by induction
      on the way to the level and on the bound of the climb.
-/

import UniqueSelector.Proofs.Dom.Loading
import UniqueSelector.Proofs.Synthesis.Soundness

namespace UniqueSelector.Synthesis

open Identifier

/-! ## The level that needs it -/

/-- The features of the element of a level are written as `text`, and NUL stands neither in them
    nor in its id. -/
structure WrittenAs (t : Tree) (a : Ascent) (text : String) : Prop where
  id : ∀ id, t.attribute? a.node "id" = some id → ∃ e, escape id = .ok e
  features : ∃ p, Profile.ofNode? t a.node = .ok (some p) ∧
    p.describe (max a.featureCount 1) = .ok text

/-- No id stands for the element of the level, its features can be written, and it has siblings
    that they are to be checked against. -/
def NeedsMatching (t : Tree) (a : Ascent) : Prop :=
  ¬ IdClosed t a.node ∧ (∃ text, WrittenAs t a text) ∧ others t a.node ≠ []

/-! ## One step -/

section Hosts

variable {σ : Type} (h : Host σ) (t : Tree)

theorem picksAny_withoutMatching {ids : List NodeId} (hids : ids ≠ []) (text : String) :
    Answers (picksAny h.withoutMatching text ids) (.error (.query .noCapability)) := by
  cases ids with
  | nil => exact absurd rfl hids
  | cons id rest =>
      have hfirst : Answers (picksOut h.withoutMatching id text) (.error (.query .noCapability)) :=
        fun _ => rfl
      exact Answers.bind_error hfirst

theorem tieBreaker_withoutMatching {node : NodeId} (hothers : others t node ≠ []) (text : String) :
    Answers (tieBreaker h.withoutMatching t node text) (.error (.query .noCapability)) :=
  Answers.bind_error (picksAny_withoutMatching h hothers text)

/-- An element without siblings is not told apart from any, so nothing is checked. -/
theorem tieBreaker_eq_of_alone {node : NodeId} (hothers : others t node = []) (text : String) :
    tieBreaker h.withoutMatching t node text = tieBreaker h t node text := by
  rw [others] at hothers
  rw [tieBreaker, tieBreaker, hothers]
  rfl

theorem step_eq_of_alone {a : Ascent} (hothers : others t a.node = []) :
    a.step h.withoutMatching t = a.step h t := by
  have hlevel : ∀ p, describeLevel h.withoutMatching t a p = describeLevel h t a p := by
    intro p
    simp only [describeLevel, tieBreaker_eq_of_alone h t hothers]
    rfl
  simp only [Ascent.step, hlevel]
  rfl

end Hosts

/-- What a step comes to where single elements cannot be checked. -/
inductive StepWithout (t : Tree) (a : Ascent) : Prop
  | fails (hneeds : NeedsMatching t a)
      (hstep : Answers (a.step (Host.ofTree t).withoutMatching t) (.error (.query .noCapability)))
  | same {r : Except SynthesisError Step} (hneeds : ¬ NeedsMatching t a)
      (hfull : Answers (a.step (Host.ofTree t) t) r)
      (hstep : Answers (a.step (Host.ofTree t).withoutMatching t) r)

/-- The id of an element is found and not checked, so both hosts are asked for it alike. -/
theorem answers_idSelector?_withoutMatching {t : Tree} {node : NodeId}
    {r : Except SynthesisError (Option String)}
    (hid : Answers (idSelector? (Host.ofTree t) t node) r) :
    Answers (idSelector? (Host.ofTree t).withoutMatching t node) r :=
  hid

/-- An id that was looked for, and did not stand in the way, can be written. -/
theorem exists_escape_of_answers {t : Tree} {node : NodeId} {selector? : Option String}
    (hid : Answers (idSelector? (Host.ofTree t) t node) (.ok selector?)) {id : String}
    (hhas : t.attribute? node "id" = some id) : ∃ e, escape id = .ok e := by
  cases he : escape id with
  | ok e => exact ⟨e, rfl⟩
  | error cause =>
      -- An empty id is not looked for, and is written as it is.
      have hne : id ≠ "" := by
        rintro rfl
        cases he
      have hfilter : (t.attribute? node "id").filter (· != "") = some id := by
        rw [hhas, Option.filter_some_pos (by simpa using hne)]
      cases hid.unique {} (answers_idSelector?_error hfilter he)

section Step

variable {t : Tree} {a : Ascent}

/-- A step at an element with siblings and without an id of its own: the features are checked
    against the siblings, if they can be written. -/
theorem stepWithout_of_open (hnode : t.isElement a.node = true)
    (hothers : others t a.node ≠ []) (hopen : ¬ IdClosed t a.node)
    (hid : Answers (idSelector? (Host.ofTree t) t a.node) (.ok none)) : StepWithout t a := by
  have hid' := answers_idSelector?_withoutMatching hid
  obtain ⟨e, he⟩ := (t.isElement_iff a.node).mp hnode
  cases hp : Profile.ofNode? t a.node with
  | error cause =>
      refine StepWithout.same ?_ (answers_step_profileError hid hp)
        (answers_step_profileError hid' hp)
      rintro ⟨-, ⟨text, -, p, hp', -⟩, -⟩
      rw [hp] at hp'
      cases hp'
  | ok p? =>
      cases p? with
      | none => exact absurd hp (Profile.ofNode?_ne_none he)
      | some p =>
          cases htext : p.describe (max a.featureCount 1) with
          | error cause =>
              refine StepWithout.same ?_ (answers_step_describeError hid hp htext)
                (answers_step_describeError hid' hp htext)
              rintro ⟨-, ⟨text, -, p', hp', htext'⟩, -⟩
              rw [hp] at hp'
              cases hp'
              rw [htext] at htext'
              cases htext'
          | ok text =>
              have hwritten : WrittenAs t a text :=
                ⟨fun _ hhas => exists_escape_of_answers hid hhas, p, hp, htext⟩
              exact StepWithout.fails ⟨hopen, ⟨text, hwritten⟩, hothers⟩
                (answers_step_tieError hid' hp htext (tieBreaker_withoutMatching _ t hothers text))

/-- The step lemma. -/
theorem step_withoutMatching (hnode : t.isElement a.node = true) : StepWithout t a := by
  by_cases hothers : others t a.node = []
  · -- Nothing is checked at all.
    have hneeds : ¬ NeedsMatching t a := fun hneeds => hneeds.2.2 hothers
    have heq := step_eq_of_alone (Host.ofTree t) t hothers
    rcases step_fails_or_advances hnode with ⟨cause, hstep⟩ | ⟨_, _, _, hstep⟩
    · exact StepWithout.same hneeds hstep (by rw [heq]; exact hstep)
    · exact StepWithout.same hneeds hstep (by rw [heq]; exact hstep)
  · cases answers_idSelector? t a.node with
    | @escapes cause id hid hhas hnul =>
        refine StepWithout.same ?_ (answers_step_idError hid)
          (answers_step_idError (answers_idSelector?_withoutMatching hid))
        rintro ⟨-, ⟨text, hwritten, -⟩, -⟩
        exact (escape_isOk_iff id).mp (hwritten id hhas) hnul
    | own hid hown =>
        refine StepWithout.same ?_ (answers_step_ownId hid)
          (answers_step_ownId (answers_idSelector?_withoutMatching hid))
        exact fun hneeds => hneeds.1 ⟨_, _, hown⟩
    | none hid hnone =>
        exact stepWithout_of_open hnode hothers (not_idClosed hnone) hid

end Step

/-! ## The climb -/

section Climb

variable {t : Tree} {a b : Ascent} {bound : Nat}

/-- A climb that comes by a level where a single element is checked fails, there or before. -/
theorem climb_noCapability (ht : t.Linked) (hreaches : Reaches t a b) (hneeds : NeedsMatching t b)
    (hbound : (t.ancestors a.node).length < bound) (hnode : t.isElement a.node = true) :
    Answers (climb (Host.ofTree t).withoutMatching t bound a) (.error (.query .noCapability)) := by
  induction hreaches using Relation.ReflTransGen.head_induction_on generalizing bound with
  | refl =>
      obtain ⟨bound, rfl⟩ := Nat.exists_eq_succ_of_ne_zero (Nat.ne_zero_of_lt hbound)
      cases step_withoutMatching hnode with
      | fails _ hstep => exact answers_climb_error hstep
      | same hnone _ _ => exact absurd hneeds hnone
  | @head a next hclimbs _ ih =>
      obtain ⟨bound, rfl⟩ := Nat.exists_eq_succ_of_ne_zero (Nat.ne_zero_of_lt hbound)
      cases step_withoutMatching hnode with
      | fails _ hstep => exact answers_climb_error hstep
      | same _ hfull hstep =>
          -- Up to here both climbs are at one level.
          cases hfull.unique {} hclimbs
          obtain ⟨parent, fragment, isUnique, hparent, rfl⟩ := hclimbs.eq_above hnode
          exact answers_climb_climb hstep (ih (length_ancestors_above ht hparent hbound)
            (parent?_of_parentElement? hparent).2)

/-- A climb that comes by no such level answers as it does on the whole host. -/
theorem climb_withoutMatching (hnode : t.isElement a.node = true)
    (hnone : ∀ b, Reaches t a b → ¬ NeedsMatching t b) {r : Except SynthesisError String}
    (hr : Answers (climb (Host.ofTree t) t bound a) r) :
    Answers (climb (Host.ofTree t).withoutMatching t bound a) r := by
  induction bound generalizing a with
  | zero => exact hr
  | succ bound ih =>
      cases step_withoutMatching hnode with
      | fails hneeds _ => exact absurd hneeds (hnone a Relation.ReflTransGen.refl)
      | @same step _ hfull hstep =>
          cases step with
          | error cause =>
              cases hr.unique {} (answers_climb_error hfull)
              exact answers_climb_error hstep
          | ok step =>
              cases step with
              | done selector =>
                  cases hr.unique {} (answers_climb_done hfull)
                  exact answers_climb_done hstep
              | climb next =>
                  obtain ⟨parent, fragment, isUnique, hparent, rfl⟩ := Climbs.eq_above hfull hnode
                  have hnext := (parent?_of_parentElement? hparent).2
                  have hends : ∃ r', Answers
                      (climb (Host.ofTree t) t bound (a.above parent fragment isUnique)) r' :=
                    exists_answers_climb hnext
                  obtain ⟨r', hrest⟩ := hends
                  cases hr.unique {} (answers_climb_climb hfull hrest)
                  exact answers_climb_climb hstep (ih hnext
                    (fun b hb => hnone b (Relation.ReflTransGen.head hfull hb)) hrest)

end Climb

/-- Without the means to check single elements the search fails just where it comes by a level
    that needs them, and for want of them; everywhere else it ends as it does with them. -/
theorem synthesize_withoutMatching {mayHold : Tree → NodeId → Prop} {t : Tree}
    (ht : Tree.Grown mayHold t) {node : NodeId} (hnode : t.isElement node = true)
    (options : Options) (log log' : WarningLog) :
    ((∃ a, Reaches t (Ascent.start node options) a ∧ NeedsMatching t a) →
      ((synthesize (Host.ofTree t).withoutMatching t (some node) options).run.run log).1 =
        .error (.query .noCapability)) ∧
    ((¬ ∃ a, Reaches t (Ascent.start node options) a ∧ NeedsMatching t a) →
      ((synthesize (Host.ofTree t).withoutMatching t (some node) options).run.run log).1 =
        ((synthesizeIn t (some node) options).run log').1) := by
  rw [synthesizeIn, synthesize_eq _ hnode, synthesize_eq _ hnode]
  constructor
  · rintro ⟨a, hreaches, hneeds⟩
    exact climb_noCapability ht.linked hreaches hneeds
      (length_ancestors_lt_size ht.linked hnode) hnode log
  · intro hnone
    have hends : ∃ r, Answers (climb (Host.ofTree t) t t.size (Ascent.start node options)) r :=
      exists_answers_climb hnode
    obtain ⟨r, hr⟩ := hends
    have hanswer := climb_withoutMatching hnode
      (fun b hreaches hneeds => hnone ⟨b, hreaches, hneeds⟩) hr
    rw [hanswer log]
    exact (hr log').symm

/-- One run of a step shows where it leads from every log. -/
theorem climbs_of_run {t : Tree} {a b : Ascent} (hnode : t.isElement a.node = true)
    (log : WarningLog) (h : ((a.step (Host.ofTree t) t).run.run log).1 = .ok (.climb b)) :
    Climbs t a b := by
  rcases step_fails_or_advances hnode with ⟨cause, hstep⟩ | ⟨_, _, _, hstep⟩
  · rw [hstep log] at h
    cases h
  · rw [hstep log] at h
    rw [h] at hstep
    exact hstep

/-- The link is alone in its item, and the item is not alone in the list. -/
theorem synthesize_withoutMatching_two_items :
    let t := Tree.ofSketch .html (.element { tag := "ul" }
      [.element { tag := "li" } [.element { tag := "a" } []],
        .element { tag := "li" } [.element { tag := "a" } []]])
    Tree.Grown Tree.MayHold t ∧ t.isElement 3 = true ∧
      (∃ a, Reaches t (Ascent.start 3 {}) a ∧ NeedsMatching t a) ∧
      ((synthesize (Host.ofTree t).withoutMatching t (some 3) {}).run.run {}).1 =
        .error (.query .noCapability) ∧
      ((synthesizeIn t (some 3) {}).run {}).1 = .ok "li:nth-child(1) > a" := by
  intro t
  have hgrown : Tree.Grown Tree.MayHold t := (Tree.isDocument_ofSketch .html rfl).whole.grown
  let item : Ascent :=
    { node := 2, below := ["a"], depth := 0, isUnique := false, featureCount := 1, toRoot := false }
  have hclimbs : Climbs t (Ascent.start 3 {}) item :=
    climbs_of_run rfl {} (by decide +kernel)
  have hnoId : t.attribute? item.node "id" = none := rfl
  have hopen : ¬ IdClosed t item.node := by
    rintro ⟨id, selector, hown⟩
    rw [hown.has] at hnoId
    cases hnoId
  have hwritten : WrittenAs t item "li" :=
    { id := by
        intro id hid
        rw [hnoId] at hid
        cases hid
      features := ⟨{ element := { tag := "li" }, tag := "li", distinctClasses := [] },
        by decide +kernel, by decide +kernel⟩ }
  have hneeds : NeedsMatching t item := ⟨hopen, ⟨"li", hwritten⟩, by decide⟩
  have hreached : ∃ a, Reaches t (Ascent.start 3 {}) a ∧ NeedsMatching t a :=
    ⟨item, Relation.ReflTransGen.single hclimbs, hneeds⟩
  exact ⟨hgrown, rfl, hreached,
    (synthesize_withoutMatching hgrown rfl {} {} {}).1 hreached, by decide +kernel⟩

end UniqueSelector.Synthesis
