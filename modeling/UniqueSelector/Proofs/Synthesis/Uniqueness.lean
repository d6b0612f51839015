/-
  UniqueSelector.Proofs.Synthesis.Uniqueness

  In a loaded document the selector of an element finds that element and no other.

  No level checks the joined path. The invariant of the climb (`Pinned`) is that
  the compounds below lead from the element of the level to the target alone, and
  from anywhere at all to the target alone once a level was unique. A level keeps
  the first since no sibling of its element meets its compound, and gives the
  second since no other element meets it. At the top the mark of the document
  element stands in for a unique level.
-/

import UniqueSelector.Proofs.Dom.Loading
import UniqueSelector.Proofs.Synthesis.Soundness

namespace UniqueSelector.Synthesis

open Selector

/-- The fragments below lead from the element of the level to `target` and to nothing else, and
    from no other node to anything else once the path is unique. -/
def Pinned (t : Tree) (target : NodeId) (a : Ascent) : Prop :=
  ∃ cs, ReadAs a.below cs ∧ t.Leads cs a.node target ∧
    (∀ x, t.Leads cs a.node x → x = target) ∧
    (a.isUnique = true → ∀ top x, t.Leads cs top x → x = target)

/-- The text is a selector that picks out `target` and nothing else. -/
def PicksOnly (t : Tree) (target : NodeId) (selector : String) : Prop :=
  ∃ s, Selector.ofString selector = .ok s ∧ ∀ x, t.picks s x = true ↔ x = target

section Document

variable {t : Tree} (ht : t.IsDocument)

include ht

/-- Among all elements only the one of the level meets the compound of a level that made the
    path unique. -/
theorem Found.only {a : Ascent} {fragment : String} {c : Compound}
    (hfound : Found t a fragment true c) (hbefore : a.isUnique = false) {x : NodeId}
    (hx : t.meetsAll x c = true) : x = a.node :=
  hfound.sure rfl hbefore (ht.mem_elements (Tree.isElement_of_meetsAll hfound.meets)) x
    (ht.mem_elements (Tree.isElement_of_meetsAll hx)) hx

/-- Below a compound that some level made unique, or that was unique before, only the target. -/
theorem Pinned.only {target : NodeId} {a : Ascent} {fragment : String} {c : Compound}
    {cs : List Compound} (hfound : Found t a fragment true c)
    (hnode : ∀ x, t.Leads cs a.node x → x = target)
    (hbefore : a.isUnique = true → ∀ top x, t.Leads cs top x → x = target) {y x : NodeId}
    (hy : t.meetsAll y c = true) (hleads : t.Leads cs y x) : x = target := by
  cases hunique : a.isUnique with
  | true => exact hbefore hunique y x hleads
  | false =>
      rw [hfound.only ht hunique hy] at hleads
      exact hnode x hleads

theorem Pinned.above {target : NodeId} {a : Ascent} {fragment : String} {isUnique : Bool}
    {c : Compound} {parent : NodeId} (h : Pinned t target a)
    (hfound : Found t a fragment isUnique c) (hparent : t.parentElement? a.node = some parent) :
    Pinned t target (a.above parent fragment isUnique) := by
  obtain ⟨cs, hread, hleads, hnode, hbefore⟩ := h
  refine ⟨c :: cs, List.Forall₂.cons hfound.reads hread,
    ⟨a.node, (parent?_of_parentElement? hparent).1, hfound.meets, hleads⟩, ?_, ?_⟩
  · -- The child the path goes down to first is the element of the level, not a sibling.
    rintro x ⟨y, hy, hmeets, hrest⟩
    have hsame : y = a.node :=
      hfound.alone (ht.mem_elements (Tree.isElement_of_meetsAll hfound.meets)) y
        (ht.mem_elements (Tree.isElement_of_meetsAll hmeets)) parent hparent hy hmeets
    rw [hsame] at hrest
    exact hnode x hrest
  · -- Wherever the path begins, a unique level sends it through its own element.
    rintro hunique top x ⟨y, -, hmeets, hrest⟩
    have htrue : isUnique = true := hunique
    rw [htrue] at hfound
    exact Pinned.only ht hfound hnode hbefore hmeets hrest

theorem Pinned.picksOnly {target : NodeId} {a : Ascent} {fragment : String} {isUnique : Bool}
    {c : Compound} (h : Pinned t target a) (hfound : Found t a fragment isUnique c)
    (hend : t.parentElement? a.node = none ∨ isUnique = true) :
    PicksOnly t target (joinLevels (fragment :: a.below)) := by
  obtain ⟨cs, hread, hleads, hnode, hbefore⟩ := h
  refine ⟨path c cs, ofString_joinLevels (List.Forall₂.cons hfound.reads hread), fun x => ?_⟩
  rw [t.picks_path_iff]
  constructor
  · rintro ⟨y, hmeets, hrest⟩
    cases hunique : isUnique with
    | true =>
        rw [hunique] at hfound
        exact Pinned.only ht hfound hnode hbefore hmeets hrest
    | false =>
        -- The climb ended at the top without a unique level.
        have htop : t.parentElement? a.node = none :=
          hend.resolve_right (by rw [hunique]; exact Bool.false_ne_true)
        have hdocument := ht.eq_documentElement (Tree.isElement_of_meetsAll hfound.meets) htop
        rw [hfound.top hunique hdocument y hmeets] at hrest
        exact hnode x hrest
  · rintro rfl
    exact ⟨a.node, hfound.meets, hleads⟩

theorem PicksOnly.find_eq {target : NodeId} {selector : String} (h : PicksOnly t target selector)
    (htarget : t.isElement target = true) : t.find selector = [target] := by
  obtain ⟨s, hread, honly⟩ := h
  rw [find_of_reads t hread]
  -- The list holds the target only, and nothing twice.
  have hmem : ∀ x, x ∈ t.select s ↔ x = target := by
    intro x
    rw [t.mem_select_iff, honly]
    constructor
    · intro hx
      exact hx.2
    · rintro rfl
      exact ⟨ht.mem_elements htarget, rfl⟩
  have hnodup : (t.select s).Nodup := ht.linked.nodup_elements.filter _
  have hperm : (t.select s).Perm [target] :=
    (List.perm_ext_iff_of_nodup hnodup (List.nodup_singleton target)).mpr fun x => by
      rw [hmem, List.mem_singleton]
  exact List.perm_singleton.mp hperm

theorem answers_synthesize_only (hsize : t.FitsMemory) (htags : t.Tagged) {node : NodeId}
    (hnode : t.isElement node = true) {options : Options} (hpath : options.isUnique = false) :
    (∃ cause, Answers (synthesize (Host.ofTree t) t (some node) options) (.error (.escape cause)) ∧
      ¬ t.NulFree) ∨
    ∃ selector, Answers (synthesize (Host.ofTree t) t (some node) options) (.ok selector) ∧
      PicksOnly t node selector := by
  have hstart : Pinned t node (Ascent.start node options) := by
    refine ⟨[], List.Forall₂.nil, rfl, fun x hx => hx.symm, fun hunique => ?_⟩
    rw [Ascent.start, hpath] at hunique
    cases hunique
  rw [synthesize_eq _ hnode]
  refine climb_answers ht.linked hsize (Pinned t node) (PicksOnly t node) ?_ ?_
    (length_ancestors_lt_size ht.linked hnode) hnode hstart (fun b _ => not_mute htags b)
  · intro a fragment isUnique c parent ha hfound hparent
    exact ha.above ht hfound hparent
  · intro a fragment isUnique c ha hfound hend
    exact ha.picksOnly ht hfound hend

end Document

/-- In a loaded document whose elements have tag names, the search from scratch gives a selector
    that finds the element alone, or fails on NUL; it fails only if there is some. -/
theorem synthesizeIn_finds_one {markup : Markup} {json : String} {t : Tree}
    (hload : Tree.load markup json = .ok t) (hsize : t.FitsMemory) (htags : t.Tagged)
    {node : NodeId} (hnode : t.isElement node = true) {options : Options}
    (hpath : options.isUnique = false) (log : WarningLog) :
    ((∃ cause, ((synthesizeIn t (some node) options).run log).1 = .error (.escape cause)) ∨
      ∃ selector, ((synthesizeIn t (some node) options).run log).1 = .ok selector ∧
        t.find selector = [node]) ∧
    (t.NulFree → ∃ selector, ((synthesizeIn t (some node) options).run log).1 = .ok selector) := by
  have ht := Tree.isDocument_of_load hload
  rcases answers_synthesize_only ht hsize htags hnode hpath with
    ⟨cause, hanswer, hnul⟩ | ⟨selector, hanswer, honly⟩
  · exact ⟨Or.inl ⟨cause, hanswer log⟩, fun hfree => absurd hfree hnul⟩
  · exact ⟨Or.inr ⟨selector, hanswer log, honly.find_eq ht hnode⟩, fun _ => ⟨selector, hanswer log⟩⟩

theorem synthesizeIn_finds_second_link :
    let t := Tree.ofSketch .html (.element { tag := "ul" }
      [.element { tag := "a" } [], .element { tag := "a" } []])
    Tree.load .html
      "\x7b\"tag\":\"ul\",\"children\":[\x7b\"tag\":\"a\"\x7d,\x7b\"tag\":\"a\"\x7d]\x7d" = .ok t ∧
    ((synthesizeIn t (some 3) {}).run {}).1 = .ok "ul > a:nth-child(2)" ∧
    t.find "ul > a:nth-child(2)" = [3] := by
  intro t
  have hload : Tree.load .html
        "\x7b\"tag\":\"ul\",\"children\":[\x7b\"tag\":\"a\"\x7d,\x7b\"tag\":\"a\"\x7d]\x7d" =
      .ok t := by
    decide +kernel
  have hsize : t.FitsMemory := by
    rw [Tree.FitsMemory, show t.size = 4 from rfl]
    decide
  have htags : t.Tagged := Tree.tagged_of_data (by decide)
  have hnode : t.isElement 3 = true := rfl
  have hpath : ({} : Options).isUnique = false := rfl
  have hanswer : ((synthesizeIn t (some 3) {}).run {}).1 = .ok "ul > a:nth-child(2)" := by
    decide +kernel
  obtain ⟨hone, -⟩ := synthesizeIn_finds_one hload hsize htags hnode hpath {}
  refine ⟨hload, hanswer, ?_⟩
  rcases hone with ⟨cause, herror⟩ | ⟨selector, hselector, hfind⟩
  · rw [hanswer] at herror
    cases herror
  · rw [hanswer] at hselector
    cases hselector
    exact hfind

end UniqueSelector.Synthesis
