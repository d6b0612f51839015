/-
  UniqueSelector.Proofs.Synthesis.Failure

  When the search fails where no NUL stands in the way. An element whose tag name
  is empty, and which no feature names, leaves its level mute; with siblings the
  search ends in a query error there, without siblings the joined text has an
  empty fragment. The search gives a selector exactly if it comes by no such level.
-/

import UniqueSelector.Proofs.Dom.Loading
import UniqueSelector.Proofs.Synthesis.Soundness

namespace UniqueSelector.Synthesis

open Selector

/-- In a loaded document without NUL the search gives a text that reads as a selector exactly
    if no level that it comes by is mute. -/
theorem synthesizeIn_reads_iff {markup : Markup} {json : String} {t : Tree}
    (hload : Tree.load markup json = .ok t) (hsize : t.FitsMemory) (hfree : t.NulFree)
    {node : NodeId} (hnode : t.isElement node = true) (options : Options) (log : WarningLog) :
    (∃ selector s, ((synthesizeIn t (some node) options).run log).1 = .ok selector ∧
      Selector.ofString selector = .ok s) ↔
    ∀ a, Reaches t (Ascent.start node options) a → ¬ Mute t a := by
  have ht := (Tree.isDocument_of_load hload).linked
  constructor
  · rintro ⟨selector, s, hselector, hread⟩ a hreaches hmute
    have hfails := climb_mute ht hsize hreaches hmute (length_ancestors_lt_size ht hnode) hnode
    rw [← synthesize_eq _ hnode] at hfails
    rw [synthesizeIn] at hselector
    rcases hfails with ⟨cause, hanswer⟩ | ⟨selector', cause, hanswer, hunread⟩
    · rw [hanswer log] at hselector
      cases hselector
    · rw [hanswer log] at hselector
      cases hselector
      rw [hunread] at hread
      cases hread
  · intro hvocal
    rcases answers_synthesize_of_vocal ht hsize hnode hvocal with
      ⟨cause, -, hnul⟩ | ⟨selector, hanswer, s, hread, -⟩
    · exact absurd hfree hnul
    · exact ⟨selector, s, hanswer log, hread⟩

/-- An element without a tag name, beside another: no NUL anywhere, and yet a query error. -/
theorem synthesizeIn_untagged_sibling_fails :
    let t := Tree.ofSketch .html (.element { tag := "ul" }
      [.element { tag := "" } [], .element { tag := "a" } []])
    Tree.load .html
        "\x7b\"tag\":\"ul\",\"children\":[\x7b\"tag\":\"\"\x7d,\x7b\"tag\":\"a\"\x7d]\x7d" = .ok t ∧
      t.NulFree ∧ t.isElement 2 = true ∧
      ((synthesizeIn t (some 2) {}).run {}).1 = .error (.query (.invalidSelector "" .empty)) := by
  intro t
  exact ⟨by decide +kernel, Tree.nulFree_of_data (by decide), rfl, by decide +kernel⟩

theorem reaches_mute_untagged_sibling :
    let t := Tree.ofSketch .html (.element { tag := "ul" }
      [.element { tag := "" } [], .element { tag := "a" } []])
    ∃ a, Reaches t (Ascent.start 2 {}) a ∧ Mute t a := by
  intro t
  have hload : Tree.load .html
        "\x7b\"tag\":\"ul\",\"children\":[\x7b\"tag\":\"\"\x7d,\x7b\"tag\":\"a\"\x7d]\x7d" =
      .ok t := by
    decide +kernel
  have hsize : t.FitsMemory := by
    rw [Tree.FitsMemory, show t.size = 4 from rfl]
    decide
  have hfree : t.NulFree := Tree.nulFree_of_data (by decide)
  have hnode : t.isElement 2 = true := rfl
  have hanswer : ((synthesizeIn t (some 2) {}).run {}).1 =
      .error (.query (.invalidSelector "" .empty)) := by
    decide +kernel
  -- Otherwise there would be a selector, and there is an error.
  by_contra hnone
  have hvocal : ∀ a, Reaches t (Ascent.start 2 {}) a → ¬ Mute t a :=
    fun a hreaches hmute => hnone ⟨a, hreaches, hmute⟩
  obtain ⟨selector, s, hselector, -⟩ :=
    (synthesizeIn_reads_iff hload hsize hfree hnode {} {}).mpr hvocal
  rw [hanswer] at hselector
  cases hselector

end UniqueSelector.Synthesis
