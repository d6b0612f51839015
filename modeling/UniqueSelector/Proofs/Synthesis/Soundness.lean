/-
  UniqueSelector.Proofs.Synthesis.Soundness

  Whatever is asked for, and wherever in whatever tree the element is, the text
  that the search gives is a selector, and it picks the element out.

  The invariant of the climb (`LeadsTo`): the fragments so far read as compounds
  that lead from the level down to the element.
-/

import UniqueSelector.Proofs.Dom.Elements
import UniqueSelector.Proofs.Synthesis.Climb

namespace UniqueSelector

open Selector

namespace Synthesis

/-- The fragments below lead from the element of the level down to `target`. -/
def LeadsTo (t : Tree) (target : NodeId) (a : Ascent) : Prop :=
  ∃ cs, ReadAs a.below cs ∧ t.Leads cs a.node target

/-- The text is a selector, and it picks out `target`. -/
def PicksOut (t : Tree) (target : NodeId) (selector : String) : Prop :=
  ∃ s, Selector.ofString selector = .ok s ∧ t.picks s target = true

theorem LeadsTo.above {t : Tree} {target : NodeId} {a : Ascent} {fragment : String}
    {isUnique : Bool} {c : Compound} {parent : NodeId} (h : LeadsTo t target a)
    (hfound : Found t a fragment isUnique c) (hparent : t.parentElement? a.node = some parent) :
    LeadsTo t target (a.above parent fragment isUnique) := by
  obtain ⟨cs, hread, hleads⟩ := h
  refine ⟨c :: cs, List.Forall₂.cons hfound.reads hread, ?_⟩
  exact ⟨a.node, (parent?_of_parentElement? hparent).1, hfound.meets, hleads⟩

theorem LeadsTo.picksOut {t : Tree} {target : NodeId} {a : Ascent} {fragment : String}
    {isUnique : Bool} {c : Compound} (h : LeadsTo t target a)
    (hfound : Found t a fragment isUnique c) :
    PicksOut t target (joinLevels (fragment :: a.below)) := by
  obtain ⟨cs, hread, hleads⟩ := h
  refine ⟨path c cs, ofString_joinLevels (List.Forall₂.cons hfound.reads hread), ?_⟩
  exact (t.picks_path_iff c cs target).mpr ⟨a.node, hfound.meets, hleads⟩

theorem leadsTo_start (t : Tree) (node : NodeId) (options : Options) :
    LeadsTo t node (Ascent.start node options) :=
  ⟨[], List.Forall₂.nil, rfl⟩

/-- The bound of the climb is larger than the way up. -/
theorem length_ancestors_lt_size {t : Tree} (ht : t.Linked) {node : NodeId}
    (hnode : t.isElement node = true) : (t.ancestors node).length < t.size :=
  ht.lineage_length_lt (ht.lineage_ancestors node) (Tree.lt_size_of_isElement hnode)

theorem synthesize_eq {σ : Type} (h : Host σ) {t : Tree} {node : NodeId}
    (hnode : t.isElement node = true) (options : Options) :
    synthesize h t (some node) options = climb h t t.size (Ascent.start node options) := by
  rw [synthesize, Option.filter_some_pos hnode]

/-- Where no level is mute, the search gives a selector that picks the element out, unless NUL
    stands in the way. -/
theorem answers_synthesize_of_vocal {t : Tree} (ht : t.Linked) (hsize : t.FitsMemory)
    {node : NodeId} (hnode : t.isElement node = true) {options : Options}
    (hvocal : ∀ b, Reaches t (Ascent.start node options) b → ¬ Mute t b) :
    (∃ cause, Answers (synthesize (Host.ofTree t) t (some node) options) (.error (.escape cause)) ∧
      ¬ t.NulFree) ∨
    ∃ selector, Answers (synthesize (Host.ofTree t) t (some node) options) (.ok selector) ∧
      PicksOut t node selector := by
  rw [synthesize_eq _ hnode]
  refine climb_answers ht hsize (LeadsTo t node) (PicksOut t node) ?_ ?_
    (length_ancestors_lt_size ht hnode) hnode (leadsTo_start t node options) hvocal
  · intro a fragment isUnique c parent ha hfound hparent
    exact ha.above hfound hparent
  · intro a fragment isUnique c ha hfound _
    exact ha.picksOut hfound

/-- With a tag name an element always has something to say. -/
theorem not_mute {t : Tree} (htags : t.Tagged) (a : Ascent) : ¬ Mute t a := by
  rintro ⟨-, ⟨p, hp, hnameless⟩, -⟩
  obtain ⟨helement, hdescribes⟩ := Profile.describes_of_ofNode? hp
  exact Profile.not_nameless hdescribes
    (Element.selectorName_ne_empty (htags a.node p.element helement) t.markup) hnameless

/-- The selector of an element picks the element out, under every option, and finds it in the
    document if it is part of it. -/
theorem synthesizeIn_sound {t : Tree} (ht : Tree.Grown Tree.MayHold t) (hsize : t.FitsMemory)
    (htags : t.Tagged) {node : NodeId} (hnode : t.isElement node = true) (options : Options)
    (log : WarningLog) {selector : String}
    (h : ((synthesizeIn t (some node) options).run log).1 = .ok selector) :
    (∃ s, Selector.ofString selector = .ok s) ∧ t.check node selector = .ok true ∧
      (Tree.root ∈ t.ancestors node → node ∈ t.find selector) := by
  have hlinked := ht.linked
  -- With tag names no level is mute, so there is one answer, and it is this selector.
  rcases answers_synthesize_of_vocal hlinked hsize hnode (fun b _ => not_mute htags b) with
    ⟨cause, hanswer, -⟩ | ⟨selector', hanswer, s, hread, hpicks⟩
  · rw [synthesizeIn, hanswer log] at h
    cases h
  · rw [synthesizeIn, hanswer log] at h
    cases h
    refine ⟨⟨s, hread⟩, ?_, fun hroot => ?_⟩
    · rw [check_of_reads t hread, hpicks]
    · rw [find_of_reads t hread, t.mem_select_iff, hlinked.mem_elements_iff ht.nested]
      exact ⟨⟨hnode, hroot⟩, hpicks⟩

theorem synthesizeIn_sound_detached_link :
    let t := (((Tree.empty .html).push (.element { tag := "ul" })).push
      (.element { tag := "a" })).append 1 2
    ((synthesizeIn t (some 2) { isUnique := true }).run {}).1 = .ok "ul > a" ∧
      t.check 2 "ul > a" = .ok true := by
  intro t
  have hgrown : Tree.Grown Tree.MayHold t := by
    apply Tree.Grown.append (((Tree.Grown.empty .html).push _).push _)
    · intro _ _
      exact ⟨rfl, by decide, by decide, by decide⟩
    · intro _ _
      exact Or.inr rfl
  have hsize : t.FitsMemory := by
    rw [Tree.FitsMemory, show t.size = 3 from rfl]
    decide
  have htags : t.Tagged := Tree.tagged_of_data (by decide)
  have hanswer : ((synthesizeIn t (some 2) { isUnique := true }).run {}).1 = .ok "ul > a" := by
    decide +kernel
  exact ⟨hanswer, (synthesizeIn_sound hgrown hsize htags rfl { isUnique := true } {} hanswer).2.1⟩

end Synthesis

end UniqueSelector
