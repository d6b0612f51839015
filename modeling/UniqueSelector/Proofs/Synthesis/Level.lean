/-
  UniqueSelector.Proofs.Synthesis.Level

  One level of the climb, whatever tree it is in. Either its fragment reads as a
  compound that tells the element from its siblings (`Found`), or the level is
  mute (`Mute`): the element has no id of its own and no feature of it gives a
  text. `step_cases` says all that a step can come to (`StepAnswer`).

    * `find_unique` — of what a compound finds, one element at most is in the list
      of one.
    * `found_ownId`, `found_described`, `found_marked` — the ways to a fragment.

  A fragment grows from the features through the place among the siblings to the
  mark of the document element; each stage adds conditions to the compound.
-/

import UniqueSelector.Proofs.Synthesis.Answers
import UniqueSelector.Proofs.Synthesis.Nameless
import UniqueSelector.Proofs.Synthesis.Path
import UniqueSelector.Proofs.Synthesis.Place

namespace UniqueSelector

open Text Identifier Selector

/-! ## Meeting a compound -/

namespace Tree

theorem meetsAll_of_element? {t : Tree} {id : NodeId} {e : Element} (h : t.element? id = some e)
    (c : Compound) : t.meetsAll id c = c.all (t.meets id e) := by
  rw [meetsAll, h]

theorem meetsAll_append (t : Tree) (id : NodeId) (c c' : Compound) :
    t.meetsAll id (c ++ c') = (t.meetsAll id c && t.meetsAll id c') := by
  rw [meetsAll, meetsAll, meetsAll]
  cases t.element? id with
  | none => rfl
  | some e => exact List.all_append

end Tree

namespace Synthesis

theorem Profile.Tells.meets {p : Profile} {n : String} (hp : p.Describes n) {x : SimpleSelector}
    (h : p.Tells x) (t : Tree) (id : NodeId) : t.meets id p.element x = true := by
  have hholds := h.holds hp t.markup
  cases h with
  | value => exact hholds
  | «class» => exact hholds
  | link => exact hholds

/-- The element meets what its description says. -/
theorem Profile.Says.meetsAll {t : Tree} {id : NodeId} {p : Profile}
    (hp : Profile.ofNode? t id = .ok (some p)) {typed : Bool} {text : List Char} {c : Compound}
    (h : p.Says (p.element.selectorName t.markup) typed text c) : t.meetsAll id c = true := by
  obtain ⟨helement, hdescribes⟩ := Profile.describes_of_ofNode? hp
  rw [Tree.meetsAll_of_element? helement, List.all_eq_true]
  intro x hx
  cases h with
  | conditions hc htells => exact (htells x hx).meets hdescribes t id
  | typed hn hc htells =>
      rcases List.mem_cons.mp hx with rfl | hx
      · exact p.element.isNamed_selectorName t.markup
      · exact (htells x hx).meets hdescribes t id

/-! ## Asking for one compound -/

/-- On a text that reads as a compound, the host is asked whether the compound is met. -/
theorem check_compound (t : Tree) {text : String} {c : Compound} (h : CompoundText text.toList c)
    (node : NodeId) : t.check node text = .ok (t.meetsAll node c) := by
  rw [check_of_reads t (ofString_compound h), t.picks_compound]

theorem mem_find_compound_iff {t : Tree} {text : String} {c : Compound}
    (h : CompoundText text.toList c) (x : NodeId) :
    x ∈ t.find text ↔ x ∈ t.elements ∧ t.meetsAll x c = true := by
  rw [find_of_reads t (ofString_compound h), t.mem_select_iff, t.picks_compound]

/-- Two elements that a fragment finds are one, if it finds one. -/
theorem find_unique {t : Tree} {text : String} {c : Compound} (h : CompoundText text.toList c)
    (hfound : (t.find text).length = 1) {x y : NodeId} (hx : x ∈ t.elements)
    (hxc : t.meetsAll x c = true) (hy : y ∈ t.elements) (hyc : t.meetsAll y c = true) : x = y := by
  obtain ⟨z, hz⟩ := List.length_eq_one_iff.mp hfound
  have hxz := (mem_find_compound_iff h x).mpr ⟨hx, hxc⟩
  have hyz := (mem_find_compound_iff h y).mpr ⟨hy, hyc⟩
  rw [hz, List.mem_singleton] at hxz hyz
  rw [hxz, hyz]

/-! ## What a level finds -/

/-- The fragment of a level reads as a compound that the element meets and none of its siblings
    does, and which no other element meets where the level made the path unique. -/
structure Found (t : Tree) (a : Ascent) (fragment : String) (isUnique : Bool) (c : Compound) :
    Prop where
  reads : CompoundText fragment.toList c
  meets : t.meetsAll a.node c = true
  alone : a.node ∈ t.elements → ∀ x ∈ t.elements, ∀ parent, t.parentElement? a.node = some parent →
    t.parent? x = some parent → t.meetsAll x c = true → x = a.node
  sure : isUnique = true → a.isUnique = false → a.node ∈ t.elements → ∀ x ∈ t.elements,
    t.meetsAll x c = true → x = a.node
  top : isUnique = false → t.documentElement? = some a.node → ∀ x, t.meetsAll x c = true →
    x = a.node

theorem compoundText_idSelector {id e : String} (he : escape id = .ok e) (hne : id ≠ "") :
    CompoundText ("#" ++ e).toList [.idName id] := by
  have hname : IsName id := ⟨hne, (escape_isOk_iff id).mp ⟨e, he⟩⟩
  have htext := CompoundText.plain (SimplesText.single (simpleText_idName hname)) (by simp)
  rw [← nameText_of_escape he] at htext
  rw [String.toList_append]
  exact htext

theorem OwnId.reads {t : Tree} {node : NodeId} {id selector : String}
    (h : OwnId t node id selector) : CompoundText selector.toList [.idName id] := by
  obtain ⟨e, he, rfl⟩ := h.written
  exact compoundText_idSelector he h.ne_empty

theorem meetsAll_idName {t : Tree} {node : NodeId} {id : String}
    (h : t.attribute? node "id" = some id) : t.meetsAll node [.idName id] = true := by
  rw [Tree.attribute?] at h
  obtain ⟨data, hdata, hid⟩ := Option.bind_eq_some_iff.mp h
  rw [Tree.meetsAll_of_element? hdata]
  simp [Tree.meets, SimpleSelector.holds, Element.id?, hid]

theorem found_ownId {t : Tree} {a : Ascent} {id selector : String}
    (h : OwnId t a.node id selector) : Found t a selector true [.idName id] := by
  have hreads := h.reads
  have hmeets := meetsAll_idName h.has
  have hone : a.node ∈ t.elements → ∀ x ∈ t.elements, t.meetsAll x [.idName id] = true →
      x = a.node := fun hnode x hx hxc => find_unique hreads h.found hx hxc hnode hmeets
  exact
    { reads := hreads
      meets := hmeets
      alone := fun hnode x hx parent _ _ hxc => hone hnode x hx hxc
      sure := fun _ _ hnode x hx hxc => hone hnode x hx hxc
      top := by rintro ⟨⟩ }

/-! ## Features and place -/

theorem mem_others_iff {t : Tree} {node parent x : NodeId}
    (h : t.parentElement? node = some parent) :
    x ∈ others t node ↔ x ∈ t.elementChildren parent ∧ x ≠ node := by
  rw [others, elementSiblings_eq h, List.mem_filter]
  simp

theorem parentElement?_of_others {t : Tree} {node : NodeId} (h : others t node ≠ []) :
    ∃ parent, t.parentElement? node = some parent := by
  cases hparent : t.parentElement? node with
  | none =>
      rw [others, Tree.elementSiblings, hparent] at h
      exact absurd rfl h
  | some parent => exact ⟨parent, rfl⟩

/-- With its place, where that is needed, a description holds of no sibling. -/
theorem tie_reads {t : Tree} (ht : t.Linked) (hsize : t.FitsMemory) {node : NodeId} {text : String}
    {c : Compound} (hreads : CompoundText text.toList c) (hmeets : t.meetsAll node c = true) :
    ∃ c', CompoundText (text ++ tie t node { subject := c }).toList c' ∧
      t.meetsAll node c' = true ∧ ∀ x parent, t.parentElement? node = some parent →
        t.parent? x = some parent → t.meetsAll x c' = true → x = node := by
  have hnode := Tree.isElement_of_meetsAll hmeets
  rw [tie]
  split
  · -- Some sibling meets the description too, and then the place tells them apart.
    rename_i hany
    have hne : others t node ≠ [] := by
      intro hnil
      rw [hnil] at hany
      cases hany
    obtain ⟨parent, hparent⟩ := parentElement?_of_others hne
    obtain ⟨offset, hplaced⟩ := placeFragment_reads ht hsize hnode hparent
    refine ⟨c ++ [.pseudo (.nthChild { step := 0, offset })], ?_, ?_, ?_⟩
    · rw [String.toList_append]
      exact hreads.append (SimplesText.single hplaced.reads)
    · rw [Tree.meetsAll_append, hmeets, Bool.true_and, Tree.meetsAll_pseudo_iff]
      exact ⟨hnode, hplaced.has⟩
    · intro x parent' hparent' hx hxc
      rw [hparent] at hparent'
      cases hparent'
      rw [Tree.meetsAll_append, Bool.and_eq_true, Tree.meetsAll_pseudo_iff] at hxc
      exact hplaced.alone x hx hxc.2.2
  · -- No sibling meets it, so nothing is added.
    rename_i hnone
    refine ⟨c, by rw [String.append_empty]; exact hreads, hmeets, ?_⟩
    intro x parent hparent hx hxc
    by_contra hne
    have hchild := (t.mem_elementChildren_iff parent x).mpr
      ⟨(ht.mem_children_iff parent x).mpr hx, Tree.isElement_of_meetsAll hxc⟩
    have hother := (mem_others_iff hparent).mpr ⟨hchild, hne⟩
    refine hnone (List.any_eq_true.mpr ⟨x, hother, ?_⟩)
    rw [t.picks_compound, hxc]

/-- The fragment with the mark of the document element, where the path is not unique without. -/
def topMark (t : Tree) (node : NodeId) (fragment : String) (isUnique : Bool) : String :=
  if !isUnique && t.documentElement? == some node then fragment ++ ":root" else fragment

theorem simpleText_root : SimpleText ":root".toList (.pseudo .root) :=
  simpleText_pseudo .root

theorem topMark_of_marked {t : Tree} {node : NodeId} {isUnique : Bool}
    (h : isUnique = false ∧ t.documentElement? = some node) (fragment : String) :
    topMark t node fragment isUnique = fragment ++ ":root" := by
  rw [topMark, if_pos (by simp [h.1, h.2])]

theorem topMark_of_not_marked {t : Tree} {node : NodeId} {isUnique : Bool}
    (h : ¬ (isUnique = false ∧ t.documentElement? = some node)) (fragment : String) :
    topMark t node fragment isUnique = fragment := by
  rw [topMark, if_neg (by simpa using h)]

theorem parentElement?_of_documentElement? {t : Tree} (ht : t.Linked) {node : NodeId}
    (h : t.documentElement? = some node) :
    t.isElement node = true ∧ t.parentElement? node = none := by
  rw [Tree.documentElement?] at h
  have hmem := (t.mem_elementChildren_iff Tree.root node).mp (List.mem_of_head? h)
  refine ⟨hmem.2, ?_⟩
  rw [Tree.parentElement?, (ht.mem_children_iff Tree.root node).mp hmem.1,
    Option.filter_some_neg (by simp [ht.isElement_root])]

/-- The mark of the document element says alone which element it is. -/
theorem found_marked {t : Tree} {a : Ascent} {fragment : String} {c : Compound}
    (hreads : CompoundText fragment.toList (c ++ [.pseudo .root]))
    (hmeets : t.meetsAll a.node c = true) (htop : t.documentElement? = some a.node) :
    Found t a fragment false (c ++ [.pseudo .root]) := by
  have honly : ∀ x, t.meetsAll x (c ++ [.pseudo .root]) = true → x = a.node := by
    intro x hxc
    rw [Tree.meetsAll_append, Bool.and_eq_true, Tree.meetsAll_pseudo_iff,
      Tree.hasPlace_root_iff, htop] at hxc
    exact (Option.some.inj hxc.2.2).symm
  exact
    { reads := hreads
      meets := by
        rw [Tree.meetsAll_append, hmeets, Bool.true_and, Tree.meetsAll_pseudo_iff,
          Tree.hasPlace_root_iff]
        exact ⟨Tree.isElement_of_meetsAll hmeets, htop⟩
      alone := fun _ x _ _ _ _ hxc => honly x hxc
      sure := by rintro ⟨⟩
      top := fun _ _ => honly }

/-- What a level finds that describes its element. -/
theorem found_described {t : Tree} (ht : t.Linked) (hsize : t.FitsMemory) {a : Ascent}
    {text : String} {c : Compound} (hreads : CompoundText text.toList c)
    (hmeets : t.meetsAll a.node c = true) {fragment : String} {isUnique : Bool}
    (hfragment : fragment = text ++ tie t a.node { subject := c })
    (hunique : isUnique = (a.isUnique || (t.find fragment).length == 1)) :
    ∃ c', Found t a (topMark t a.node fragment isUnique) isUnique c' := by
  obtain ⟨c', hreads', hmeets', halone⟩ := tie_reads ht hsize hreads hmeets
  rw [← hfragment] at hreads'
  by_cases hmark : isUnique = false ∧ t.documentElement? = some a.node
  · rw [topMark_of_marked hmark, hmark.1]
    refine ⟨c' ++ [.pseudo .root], found_marked ?_ hmeets' hmark.2⟩
    rw [String.toList_append]
    exact hreads'.append (SimplesText.single simpleText_root)
  · rw [topMark_of_not_marked hmark]
    -- The path was not unique before, so it is the fragment that the host found once.
    have hsure : isUnique = true → a.isUnique = false → a.node ∈ t.elements → ∀ x ∈ t.elements,
        t.meetsAll x c' = true → x = a.node := by
      intro htrue hbefore hnode x hx hxc
      rw [hunique, hbefore, Bool.false_or, beq_iff_eq] at htrue
      exact find_unique hreads' htrue hx hxc hnode hmeets'
    exact
      ⟨c',
        { reads := hreads'
          meets := hmeets'
          alone := fun _ x _ parent hparent hx hxc => halone x parent hparent hx hxc
          sure := hsure
          top := fun h htop => absurd ⟨h, htop⟩ hmark }⟩

/-! ## One step -/

/-- The level has nothing to write: no id stands for its element and no feature of it gives a
    text. Where the path is not unique yet, the document element still has its mark. -/
def Mute (t : Tree) (a : Ascent) : Prop :=
  (∀ id selector, ¬ OwnId t a.node id selector) ∧
    (∃ p, Profile.ofNode? t a.node = .ok (some p) ∧ p.Nameless) ∧
    ¬ (a.isUnique = false ∧ t.documentElement? = some a.node)

theorem answers_topMark (t : Tree) (node : NodeId) (fragment : String) (isUnique : Bool) :
    Answers (if !isUnique && t.documentElement? == some node then
        pure (fragment ++ ":root", isUnique)
      else pure (fragment, isUnique) : Search WarningLog (String × Bool))
      (.ok (topMark t node fragment isUnique, isUnique)) := by
  rw [topMark]
  split
  · exact answers_pure _
  · exact answers_pure _

/-- With the place in hand, the uniqueness of the path and the mark follow. -/
theorem answers_describeLevel (t : Tree) {a : Ascent} {p : Profile} {text place : String}
    (hdescribe : p.describe (max a.featureCount 1) = .ok text)
    (hplace : Answers (tieBreaker (Host.ofTree t) t a.node text) (.ok place)) {fragment : String}
    {isUnique : Bool} (hfragment : fragment = text ++ place)
    (hunique : isUnique = (a.isUnique || (t.find fragment).length == 1)) :
    Answers (describeLevel (Host.ofTree t) t a p)
      (.ok (topMark t a.node fragment isUnique, isUnique)) := by
  have hknown := answers_becomesUnique t a.isUnique fragment
  rw [← hunique] at hknown
  rw [describeLevel]
  refine Answers.bind (answers_liftEscape hdescribe) (Answers.bind hplace ?_)
  dsimp only
  rw [← hfragment]
  exact Answers.bind hknown (answers_topMark t a.node fragment isUnique)

theorem find_empty (t : Tree) : t.find "" = [] :=
  rfl

/-- Nothing is asked about an empty fragment of an element without siblings. -/
theorem answers_describeLevel_blank (t : Tree) {a : Ascent} {p : Profile}
    (hdescribe : p.describe (max a.featureCount 1) = .ok "") :
    Answers (describeLevel (Host.ofTree t) t a p)
      (if others t a.node = [] then .ok (topMark t a.node "" a.isUnique, a.isUnique)
      else .error (.query (.invalidSelector "" .empty))) := by
  have hunread : Selector.ofString "" = .error .empty := rfl
  have htie := answers_tieBreaker_unread t a.node hunread
  by_cases hothers : others t a.node = []
  · rw [if_pos hothers] at htie ⊢
    exact answers_describeLevel t hdescribe htie rfl (by simp [find_empty])
  · rw [if_neg hothers] at htie ⊢
    rw [describeLevel]
    exact Answers.bind (answers_liftEscape hdescribe) (Answers.bind_error htie)

section Step

variable {σ : Type} {h : Host σ} {t : Tree} {a : Ascent}

theorem answers_step_idError {cause : SynthesisError}
    (hid : Answers (idSelector? h t a.node) (.error cause)) :
    Answers (a.step h t) (.error cause) := by
  rw [Ascent.step]
  exact Answers.bind_error hid

theorem answers_step_ownId {selector : String}
    (hid : Answers (idSelector? h t a.node) (.ok (some selector))) :
    Answers (a.step h t) (.ok (a.advance t selector true false)) := by
  rw [Ascent.step]
  exact Answers.bind hid (answers_pure _)

variable (hid : Answers (idSelector? h t a.node) (.ok none))

include hid

theorem answers_step_profileError {cause : EscapeError}
    (hp : Profile.ofNode? t a.node = .error cause) :
    Answers (a.step h t) (.error (.escape cause)) := by
  rw [Ascent.step]
  exact Answers.bind hid (Answers.bind_error (answers_liftEscape_error hp))

variable {p : Profile} (hp : Profile.ofNode? t a.node = .ok (some p))

include hp

theorem answers_step_levelError {cause : SynthesisError}
    (hlevel : Answers (describeLevel h t a p) (.error cause)) :
    Answers (a.step h t) (.error cause) := by
  rw [Ascent.step]
  exact Answers.bind hid (Answers.bind (answers_liftEscape hp) (Answers.bind_error hlevel))

theorem answers_step_describeError {cause : EscapeError}
    (htext : p.describe (max a.featureCount 1) = .error cause) :
    Answers (a.step h t) (.error (.escape cause)) := by
  refine answers_step_levelError hid hp ?_
  rw [describeLevel]
  exact Answers.bind_error (answers_liftEscape_error htext)

theorem answers_step_tieError {text : String} {cause : SynthesisError}
    (htext : p.describe (max a.featureCount 1) = .ok text)
    (htie : Answers (tieBreaker h t a.node text) (.error cause)) :
    Answers (a.step h t) (.error cause) := by
  refine answers_step_levelError hid hp ?_
  rw [describeLevel]
  exact Answers.bind (answers_liftEscape htext) (Answers.bind_error htie)

theorem answers_step_described {fragment : String} {isUnique : Bool}
    (hlevel : Answers (describeLevel h t a p) (.ok (fragment, isUnique))) :
    Answers (a.step h t)
      (.ok (a.advance t fragment isUnique (a.depth != 0 || !isUnique))) := by
  rw [Ascent.step]
  refine Answers.bind hid (Answers.bind (answers_liftEscape hp) ?_)
  exact Answers.bind hlevel (answers_pure _)

end Step

/-- The mark of the document element is a fragment of its own. -/
theorem found_top {t : Tree} (ht : t.Linked) {a : Ascent}
    (h : t.documentElement? = some a.node) : Found t a ":root" false [.pseudo .root] := by
  obtain ⟨e, he⟩ := (t.isElement_iff a.node).mp (parentElement?_of_documentElement? ht h).1
  have hnothing : t.meetsAll a.node [] = true := by
    rw [Tree.meetsAll_of_element? he]
    rfl
  have hreads : CompoundText ":root".toList ([] ++ [.pseudo .root]) :=
    CompoundText.plain (SimplesText.single simpleText_root) (by simp)
  exact found_marked hreads hnothing h

/-- All that a step at an element can come to. -/
inductive StepAnswer (t : Tree) (a : Ascent) : Prop
  /-- NUL stands in a text of the element. -/
  | escapes {cause : EscapeError} {e : Element}
      (hstep : Answers (a.step (Host.ofTree t) t) (.error (.escape cause)))
      (he : t.element? a.node = some e) (hnul : ¬ e.NulFree)
  /-- A fragment tells the element apart. -/
  | finds {fragment : String} {isUnique goesOn : Bool} {c : Compound}
      (hstep : Answers (a.step (Host.ofTree t) t) (.ok (a.advance t fragment isUnique goesOn)))
      (hfound : Found t a fragment isUnique c) (hends : goesOn = false → isUnique = true)
      (hvocal : ¬ Mute t a)
  /-- The empty fragment of an element with siblings is no selector to check them against. -/
  | refuses {cause : QueryError} (hmute : Mute t a)
      (hstep : Answers (a.step (Host.ofTree t) t) (.error (.query cause)))
  /-- The empty fragment of an element without siblings is taken as it is. -/
  | blanks {goesOn : Bool} (hmute : Mute t a)
      (hstep : Answers (a.step (Host.ofTree t) t) (.ok (a.advance t "" a.isUnique goesOn)))

theorem budget_pos (a : Ascent) : 0 < max a.featureCount 1 :=
  Nat.lt_of_lt_of_le Nat.one_pos (Nat.le_max_right _ _)

/-- The climb may only end at a level by which the path is unique. -/
theorem unique_of_ends (a : Ascent) {isUnique : Bool}
    (h : (a.depth != 0 || !isUnique) = false) : isUnique = true := by
  rw [Bool.or_eq_false_iff, Bool.not_eq_false'] at h
  exact h.2

section Described

variable {t : Tree} (ht : t.Linked) {a : Ascent} {p : Profile}
  (hp : Profile.ofNode? t a.node = .ok (some p))
  (hid : Answers (idSelector? (Host.ofTree t) t a.node) (.ok none))

include ht hp hid

/-- A step at an element without an id of its own that no feature names. -/
theorem stepAnswer_of_nameless (hnone : ∀ id selector, ¬ OwnId t a.node id selector)
    (hnameless : p.Nameless) : StepAnswer t a := by
  have hlevel := answers_describeLevel_blank t (a := a)
    ((Profile.describe_eq_empty_iff (budget_pos a)).mpr hnameless)
  by_cases hmark : a.isUnique = false ∧ t.documentElement? = some a.node
  · -- The document element has no siblings, so it gets its mark and nothing is asked.
    have hothers : others t a.node = [] := by
      rw [others, Tree.elementSiblings, (parentElement?_of_documentElement? ht hmark.2).2]
      rfl
    rw [if_pos hothers, topMark_of_marked hmark, hmark.1, String.empty_append] at hlevel
    refine StepAnswer.finds (answers_step_described hid hp hlevel) (found_top ht hmark.2)
      (unique_of_ends a) ?_
    intro hmute
    exact hmute.2.2 hmark
  · have hmute : Mute t a := ⟨hnone, ⟨p, hp, hnameless⟩, hmark⟩
    rw [topMark_of_not_marked hmark] at hlevel
    by_cases hothers : others t a.node = []
    · rw [if_pos hothers] at hlevel
      exact StepAnswer.blanks hmute (answers_step_described hid hp hlevel)
    · rw [if_neg hothers] at hlevel
      exact StepAnswer.refuses hmute (answers_step_levelError hid hp hlevel)

/-- A step at an element without an id of its own that has a description. -/
theorem stepAnswer_of_describe (hsize : t.FitsMemory) {text : String}
    (htext : p.describe (max a.featureCount 1) = .ok text) (hne : text ≠ "") : StepAnswer t a := by
  obtain ⟨-, hdescribes⟩ := Profile.describes_of_ofNode? hp
  have hsaid := Profile.says_describe hdescribes htext
  have hreads := hsaid.compoundText (by simpa using hne)
  have hlevel := answers_describeLevel t htext
    (answers_tieBreaker t a.node (ofString_compound hreads)) rfl rfl
  obtain ⟨c', hfound⟩ := found_described ht hsize hreads (hsaid.meetsAll hp) rfl rfl
  refine StepAnswer.finds (answers_step_described hid hp hlevel) hfound (unique_of_ends a) ?_
  rintro ⟨-, ⟨p', hp', hnameless⟩, -⟩
  rw [hp] at hp'
  cases hp'
  rw [(Profile.describe_eq_empty_iff (budget_pos a)).mpr hnameless] at htext
  exact hne (Except.ok.inj htext).symm

end Described

/-- A step at an element fails on NUL, goes on with a fragment that tells the element apart, or
    is mute. -/
theorem step_cases {t : Tree} (ht : t.Linked) (hsize : t.FitsMemory) {a : Ascent}
    (hnode : t.isElement a.node = true) : StepAnswer t a := by
  obtain ⟨e, he⟩ := (t.isElement_iff a.node).mp hnode
  cases answers_idSelector? t a.node with
  | @escapes cause id hid hhas hnul =>
      rw [Tree.attribute?, he] at hhas
      exact StepAnswer.escapes (answers_step_idError hid) he fun hfree =>
        hfree.2 "id" id hhas hnul
  | @own id selector hid hown =>
      refine StepAnswer.finds (answers_step_ownId hid) (found_ownId hown) (fun _ => rfl) ?_
      intro hmute
      exact hmute.1 id selector hown
  | none hid hnone =>
      cases hp : Profile.ofNode? t a.node with
      | error cause =>
          refine StepAnswer.escapes (answers_step_profileError hid hp) he fun hfree => ?_
          obtain ⟨p, hp'⟩ := Profile.exists_ofNode? he hfree
          rw [hp] at hp'
          cases hp'
      | ok p? =>
          cases p? with
          | none => exact absurd hp (Profile.ofNode?_ne_none he)
          | some p =>
              cases htext : p.describe (max a.featureCount 1) with
              | ok text =>
                  by_cases hempty : text = ""
                  · rw [hempty] at htext
                    exact stepAnswer_of_nameless ht hp hid hnone
                      ((Profile.describe_eq_empty_iff (budget_pos a)).mp htext)
                  · exact stepAnswer_of_describe ht hp hid hsize htext hempty
              | error cause =>
                  obtain ⟨helement, hdescribes⟩ := Profile.describes_of_ofNode? hp
                  have hstep := answers_step_describeError hid hp htext
                  refine StepAnswer.escapes hstep helement fun hfree => ?_
                  obtain ⟨text, htext'⟩ := Profile.exists_describe hdescribes hfree
                    (max a.featureCount 1)
                  rw [htext] at htext'
                  cases htext'

end Synthesis

end UniqueSelector
