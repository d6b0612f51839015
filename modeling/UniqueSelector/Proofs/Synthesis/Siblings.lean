/-
  UniqueSelector.Proofs.Synthesis.Siblings

  An element among its siblings, in any tree. Its place is written behind its
  features just where some other element sibling has the same features, and the
  two together are met by no sibling; so two siblings are never called the same.

    * `Called` — what an element is called by so many of its features.
    * `Apart` — a text and a place that tell an element from its siblings;
      `exists_apart`.
    * `tieBreaker_exact` — features and place of an element with a tag name.

  The search counts the element among the element children of its parent element,
  the selector counts it among those of its parent; where there are siblings to
  be told apart the two are one list.
-/

import UniqueSelector.Proofs.Synthesis.Shape

namespace UniqueSelector.Synthesis

open Text Selector

/-- The features of an element with a tag name, `budget` of them at most, and what the search
    writes behind them. -/
structure Called (t : Tree) (node : NodeId) (budget : Nat) (text place : String) : Prop where
  budget_pos : 0 < budget
  described : ∃ p, Profile.ofNode? t node = .ok (some p) ∧ p.element.tag ≠ "" ∧
    p.describe budget = .ok text
  placed : Answers (tieBreaker (Host.ofTree t) t node text) (.ok place)

/-- With its place, where that is needed, a text tells an element from its siblings. -/
structure Apart (t : Tree) (node : NodeId) (text place : String) : Prop where
  has_text : t.check node text = .ok true
  place_eq_empty_iff :
    place = "" ↔ ∀ sibling ∈ others t node, t.check sibling text = .ok false
  reads : ∃ s, Selector.ofString (text ++ place) = .ok s
  has : t.check node (text ++ place) = .ok true
  alone : ∀ sibling ∈ others t node, t.check sibling (text ++ place) = .ok false
  -- A class is named only where no sibling has it.
  of_class : ∀ s, Selector.ofString text = .ok s →
    ∀ c ∈ s.compounds, ∀ name, .className name ∈ c → place = ""

/-! ## Classes -/

/-- A class that the features name is one that no sibling has. -/
theorem Profile.Says.not_hasClass {t : Tree} {node : NodeId} {p : Profile}
    (hp : Profile.ofNode? t node = .ok (some p)) {n : String} {typed : Bool} {text : List Char}
    {c : Compound} (h : p.Says n typed text c) {name : String} (hname : .className name ∈ c)
    {sibling : NodeId} (hsibling : sibling ∈ others t node) {e : Element}
    (he : t.element? sibling = some e) : e.hasClass name = false := by
  have htells : p.Tells (.className name) := by
    cases h with
    | conditions _ htells => exact htells _ hname
    | typed _ _ htells =>
        rcases List.mem_cons.mp hname with heq | hname
        · cases heq
        · exact htells _ hname
  cases htells.telling hp with
  | «class» _ _ halone => exact halone sibling hsibling e he

theorem not_meetsAll_of_class {t : Tree} {node : NodeId} {c : Compound} {name : String}
    (hname : .className name ∈ c)
    (halone : ∀ e, t.element? node = some e → e.hasClass name = false) :
    t.meetsAll node c = false := by
  rw [Bool.eq_false_iff]
  intro hmeets
  obtain ⟨e, he⟩ := (t.isElement_iff node).mp (Tree.isElement_of_meetsAll hmeets)
  rw [Tree.meetsAll_of_element? he, List.all_eq_true] at hmeets
  have hholds : e.hasClass name = true := hmeets _ hname
  rw [halone e he] at hholds
  cases hholds

/-! ## The place -/

theorem placeFragment_ne_empty (t : Tree) (node : NodeId) : placeFragment t node ≠ "" := by
  intro hempty
  obtain ⟨k, hk⟩ := exists_toList_placeFragment t node
  rw [hempty] at hk
  cases hk

/-- Something is written behind a compound just where some sibling meets it. -/
theorem tie_eq_empty_iff (t : Tree) (node : NodeId) (c : Compound) :
    tie t node { subject := c } = "" ↔ ∀ sibling ∈ others t node, t.meetsAll sibling c = false := by
  rw [tie]
  split
  · rename_i hany
    obtain ⟨sibling, hsibling, hpicked⟩ := List.any_eq_true.mp hany
    rw [t.picks_compound] at hpicked
    refine iff_of_false (placeFragment_ne_empty t node) fun hnone => ?_
    rw [hnone sibling hsibling] at hpicked
    cases hpicked
  · rename_i hnone
    refine iff_of_true rfl fun sibling hsibling => ?_
    rw [Bool.eq_false_iff]
    intro hmeets
    refine hnone (List.any_eq_true.mpr ⟨sibling, hsibling, ?_⟩)
    rw [t.picks_compound, hmeets]

theorem check_eq_false_iff (t : Tree) {text : String} {c : Compound}
    (h : CompoundText text.toList c) (node : NodeId) :
    t.check node text = .ok false ↔ t.meetsAll node c = false := by
  rw [check_compound t h, Except.ok.injEq]

/-! ## Features and place -/

section Linked

variable {t : Tree} (ht : t.Linked) (hsize : t.FitsMemory) {node : NodeId}

include ht hsize

/-- What features say of an element tells it from its siblings, together with its place. -/
theorem Profile.Says.apart {p : Profile} (hp : Profile.ofNode? t node = .ok (some p)) {typed : Bool}
    {text : String} {c : Compound}
    (h : p.Says (p.element.selectorName t.markup) typed text.toList c)
    (hreads : CompoundText text.toList c) : Apart t node text (tie t node { subject := c }) := by
  have hmeets := h.meetsAll hp
  obtain ⟨c', hreads', hmeets', halone⟩ := tie_reads ht hsize hreads hmeets
  exact
    { has_text := by rw [check_compound t hreads, hmeets]
      place_eq_empty_iff := by simp only [tie_eq_empty_iff, check_eq_false_iff t hreads]
      reads := ⟨_, ofString_compound hreads'⟩
      has := by rw [check_compound t hreads', hmeets']
      alone := by
        intro sibling hsibling
        obtain ⟨parent, hparent⟩ := parentElement?_of_others (List.ne_nil_of_mem hsibling)
        obtain ⟨hchild, hother⟩ := (mem_others_iff hparent).mp hsibling
        have hup := (ht.mem_children_iff parent sibling).mp
          ((t.mem_elementChildren_iff parent sibling).mp hchild).1
        rw [check_eq_false_iff t hreads', Bool.eq_false_iff]
        exact fun hmet => hother (halone sibling parent hparent hup hmet)
      of_class := by
        intro s hs d hd name hname
        rw [ofString_compound hreads] at hs
        cases hs
        obtain rfl := List.mem_singleton.mp hd
        rw [tie_eq_empty_iff]
        intro sibling hsibling
        exact not_meetsAll_of_class hname fun e he => h.not_hasClass hp hname hsibling he }

theorem exists_apart {p : Profile} (hp : Profile.ofNode? t node = .ok (some p))
    (htag : p.element.tag ≠ "") {budget : Nat} (hbudget : 0 < budget) {text : String}
    (htext : p.describe budget = .ok text) :
    ∃ place, Answers (tieBreaker (Host.ofTree t) t node text) (.ok place) ∧
      Apart t node text place := by
  obtain ⟨-, hdescribes⟩ := Profile.describes_of_ofNode? hp
  have hsays := Profile.says_describe hdescribes htext
  have hne := Profile.describe_ne_empty hp htag hbudget htext
  have hreads := hsays.compoundText (by simpa using hne)
  exact ⟨_, answers_tieBreaker t node (ofString_compound hreads), hsays.apart ht hsize hp hreads⟩

theorem Called.apart {budget : Nat} {text place : String} (h : Called t node budget text place) :
    Apart t node text place := by
  obtain ⟨p, hp, htag, htext⟩ := h.described
  obtain ⟨place', hanswer, hapart⟩ := exists_apart ht hsize hp htag h.budget_pos htext
  cases hanswer.unique {} h.placed
  exact hapart

end Linked

/-- Whatever features name an element with a tag name, its place is written behind them where a
    sibling has them too, and nothing else is; what comes of it is met by no sibling, and no
    sibling is called so. -/
theorem tieBreaker_exact {mayHold : Tree → NodeId → Prop} {t : Tree} (ht : Tree.Grown mayHold t)
    (hsize : t.FitsMemory) {node : NodeId} {p : Profile}
    (hp : Profile.ofNode? t node = .ok (some p)) (htag : p.element.tag ≠ "") {budget : Nat}
    (hbudget : 0 < budget) {text : String} (htext : p.describe budget = .ok text) :
    ∃ place, Called t node budget text place ∧ Apart t node text place ∧
      ∀ sibling ∈ others t node, ∀ budget' text' place',
        Called t sibling budget' text' place' → text' ++ place' ≠ text ++ place := by
  obtain ⟨place, hanswer, hapart⟩ := exists_apart ht.linked hsize hp htag hbudget htext
  refine ⟨place, ⟨hbudget, ⟨p, hp, htag, htext⟩, hanswer⟩, hapart, ?_⟩
  intro sibling hsibling budget' text' place' hcalled' heq
  -- The sibling meets what it is called, and does not meet what the element is called.
  have hhas := (hcalled'.apart ht.linked hsize).has
  rw [heq, hapart.alone sibling hsibling] at hhas
  cases hhas

theorem tieBreaker_exact_second_item :
    let t := Tree.ofSketch .html (.element { tag := "ul" }
      [.element { tag := "li", attributes := .ofList [("class", "odd")] } [], .text "and",
        .element { tag := "li", attributes := .ofList [("class", "odd")] } [],
        .element { tag := "li", attributes := .ofList [("class", "last")] } []])
    Tree.Grown Tree.MayHold t ∧ t.FitsMemory ∧
      ∃ p, Profile.ofNode? t 4 = .ok (some p) ∧ p.element.tag ≠ "" ∧ p.describe 2 = .ok "li" ∧
        ∃ place, Called t 4 2 "li" place ∧ Apart t 4 "li" place ∧
          ∀ sibling ∈ others t 4, ∀ budget' text' place',
            Called t sibling budget' text' place' → text' ++ place' ≠ "li" ++ place := by
  intro t
  have hgrown : Tree.Grown Tree.MayHold t := (Tree.isDocument_ofSketch .html rfl).whole.grown
  have hsize : t.FitsMemory := by
    rw [Tree.FitsMemory, show t.size = 6 from rfl]
    decide
  let p : Profile :=
    { element := { tag := "li", attributes := .ofList [("class", "odd")] }
      tag := "li"
      distinctClasses := [] }
  have hp : Profile.ofNode? t 4 = .ok (some p) := by decide +kernel
  have htext : p.describe 2 = .ok "li" := by decide +kernel
  exact ⟨hgrown, hsize, p, hp, by decide, htext,
    tieBreaker_exact hgrown hsize hp (by decide) (by decide) htext⟩

end UniqueSelector.Synthesis
