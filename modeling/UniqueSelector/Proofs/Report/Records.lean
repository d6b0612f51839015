/-
  UniqueSelector.Proofs.Report.Records

  What the program says about all elements of a document, from the text of the
  file to the text on standard output. The lines are written out here once more,
  with the marks and colours as a terminal gets them, so that what stands on
  standard output is said without the code that puts it together.

    * `tickLine`, `tildeLine`, `crossLine` — the three kinds of line.
    * `Tree.Told` — a line tells how a selector fares; `told_line` is what one
      record comes to.
    * `Tree.selectorOf` — the answer of the search, the same whatever warnings
      were given before (`answers_selectorOf`).
    * `Tree.Reported` — the lines for a list of elements, up to the first one
      without a selector; `reported_records` is the run lemma.
    * `Command.run_selectAll` — the whole command.
-/

import UniqueSelector.Command
import UniqueSelector.Proofs.Dom.Order
import UniqueSelector.Proofs.Synthesis.Uniqueness

namespace UniqueSelector

open Synthesis

/-! ## Lines -/

/-- A mark, the tag name in angle brackets and dimmed, the selector in bold, and a remark. -/
def lineText (mark tag selector remark : String) : String :=
  mark ++ " \x1b[2m<" ++ tag ++ ">\x1b[0m \x1b[1m" ++ selector ++ "\x1b[0m" ++ remark

/-- The line with a green tick. -/
def tickLine (tag selector : String) : String :=
  lineText "\x1b[32m✓\x1b[39m" tag selector ""

/-- The line with a yellow tilde, which ends with the number of elements found. -/
def tildeLine (tag selector : String) (count : Nat) : String :=
  lineText "\x1b[33m~\x1b[39m" tag selector
    (" \x1b[33m(" ++ toString count ++ " matches)\x1b[39m")

/-- The line with a red cross. -/
def crossLine (tag selector : String) : String :=
  lineText "\x1b[31m✗\x1b[39m" tag selector ""

section Lines

variable (tag selector : String) (count : Nat)

theorem lineText_ne {mark mark' : String} (hlength : mark.toList.length = mark'.toList.length)
    (hne : mark ≠ mark') (remark remark' : String) :
    lineText mark tag selector remark ≠ lineText mark' tag selector remark' := by
  intro h
  have hlist := congrArg String.toList h
  simp only [lineText, String.toList_append, List.append_assoc] at hlist
  exact hne (String.toList_injective (List.append_inj hlist hlength).1)

theorem tickLine_ne_tildeLine : tickLine tag selector ≠ tildeLine tag selector count :=
  lineText_ne tag selector (by decide) (by decide) _ _

theorem tickLine_ne_crossLine : tickLine tag selector ≠ crossLine tag selector :=
  lineText_ne tag selector (by decide) (by decide) _ _

theorem tildeLine_ne_crossLine : tildeLine tag selector count ≠ crossLine tag selector :=
  lineText_ne tag selector (by decide) (by decide) _ _

theorem colours_eq_lineText (mark remark : String) :
    mark ++ (" " ++ Colour.dimmed ("<" ++ tag ++ ">") ++ " " ++ Colour.bold selector) ++ remark =
      lineText mark tag selector remark := by
  apply String.toList_injective
  simp only [Colour.dimmed, Colour.bold, lineText, String.toList_append, List.append_assoc]
  rfl

theorem Record.line_unique :
    line { mark := .unique, tag := "<" ++ tag ++ ">", selector } = tickLine tag selector := by
  rw [tickLine, ← colours_eq_lineText, String.append_empty]
  rfl

theorem Record.line_ambiguous :
    line { mark := .ambiguous count, tag := "<" ++ tag ++ ">", selector } =
      tildeLine tag selector count := by
  have hcount : " " ++ Colour.yellow s!"({count} matches)" =
      " \x1b[33m(" ++ toString count ++ " matches)\x1b[39m" := by
    apply String.toList_injective
    simp only [Colour.yellow, String.toList_append, List.append_assoc]
    rfl
  rw [tildeLine, ← hcount, ← colours_eq_lineText, ← String.append_assoc]
  rfl

theorem Record.line_missing :
    line { mark := .missing, tag := "<" ++ tag ++ ">", selector } = crossLine tag selector := by
  rw [crossLine, ← colours_eq_lineText, String.append_empty]
  rfl

end Lines

namespace Tree

/-! ## What a line says -/

/-- The selector that the search gives for an element, or why there is none. -/
def selectorOf (t : Tree) (options : Options) (node : NodeId) : Except SynthesisError String :=
  ((synthesizeIn t (some node) options).run {}).1

/-- The line tells how a selector for the element fares in the document: whether it finds the
    element alone, among others, or not at all. -/
structure Told (t : Tree) (node : NodeId) (tag selector line : String) : Prop where
  tick_iff : line = tickLine tag selector ↔ t.find selector = [node]
  tilde_iff : line = tildeLine tag selector (t.find selector).length ↔
    node ∈ t.find selector ∧ t.find selector ≠ [node]
  cross_iff : line = crossLine tag selector ↔ node ∉ t.find selector

/-- The line names the element by its tag name as written and tells how the selector of the search
    fares. -/
def Printed (t : Tree) (options : Options) (node : NodeId) (line : String) : Prop :=
  ∃ e selector, t.element? node = some e ∧ t.selectorOf options node = .ok selector ∧
    t.Told node e.tag selector line

/-- The line has the tick, and the selector of the search finds the element alone. -/
def Ticked (t : Tree) (options : Options) (node : NodeId) (line : String) : Prop :=
  ∃ e selector, t.element? node = some e ∧ t.selectorOf options node = .ok selector ∧
    t.find selector = [node] ∧ line = tickLine e.tag selector

theorem told_line (t : Tree) (node : NodeId) (tag selector : String) :
    t.Told node tag selector (Record.line
      { mark := Mark.of node (t.find selector), tag := "<" ++ tag ++ ">", selector }) := by
  by_cases honly : t.find selector = [node]
  · have hmark : Mark.of node (t.find selector) = .unique := by
      rw [Mark.of, if_pos (beq_iff_eq.mpr honly)]
    rw [hmark, Record.line_unique]
    constructor
    · exact iff_of_true rfl honly
    · exact iff_of_false (tickLine_ne_tildeLine _ _ _) fun h => h.2 honly
    · exact iff_of_false (tickLine_ne_crossLine _ _)
        (not_not.mpr (honly ▸ List.mem_singleton_self node))
  · by_cases hmem : node ∈ t.find selector
    · have hmark : Mark.of node (t.find selector) = .ambiguous (t.find selector).length := by
        rw [Mark.of, if_neg (by rwa [beq_iff_eq]), if_pos (List.contains_iff_mem.mpr hmem)]
      rw [hmark, Record.line_ambiguous]
      constructor
      · exact iff_of_false (tickLine_ne_tildeLine _ _ _).symm honly
      · exact iff_of_true rfl ⟨hmem, honly⟩
      · exact iff_of_false (tildeLine_ne_crossLine _ _ _) (not_not.mpr hmem)
    · have hmark : Mark.of node (t.find selector) = .missing := by
        rw [Mark.of, if_neg (by rwa [beq_iff_eq]), if_neg (by rwa [List.contains_iff_mem])]
      rw [hmark, Record.line_missing]
      constructor
      · exact iff_of_false (tickLine_ne_crossLine _ _).symm honly
      · exact iff_of_false (tildeLine_ne_crossLine _ _ _).symm fun h => hmem h.1
      · exact iff_of_true rfl hmem

section One

variable {t : Tree} {node : NodeId} (hnode : t.isElement node = true) (options : Options)

include hnode

/-- Warnings given before have no part in the answer. -/
theorem answers_selectorOf :
    Answers (synthesize (Host.ofTree t) t (some node) options) (t.selectorOf options node) := by
  -- The climb has one answer for all logs, the empty one among them.
  have hclimb : ∃ r, Answers (climb (Host.ofTree t) t t.size (Ascent.start node options)) r :=
    exists_answers_climb hnode
  rw [← synthesize_eq _ hnode] at hclimb
  obtain ⟨r, hanswer⟩ := hclimb
  have heq : t.selectorOf options node = r := hanswer {}
  rw [heq]
  exact hanswer

theorem record_run (log : WarningLog) : ((t.record options node).run log).1 =
    (t.selectorOf options node).map fun selector =>
      { mark := Mark.of node (t.find selector), tag := t.tagLabel node, selector } := by
  have hanswer : ((synthesizeIn t (some node) options).run log).1 = t.selectorOf options node :=
    answers_selectorOf hnode options log
  rw [record, StateT.run_bind]
  generalize (synthesizeIn t (some node) options).run log = answered at hanswer ⊢
  obtain ⟨answer, log'⟩ := answered
  subst hanswer
  cases t.selectorOf options node with
  | error cause => rfl
  | ok selector => rfl

theorem printed_of_selectorOf {selector : String}
    (h : t.selectorOf options node = .ok selector) : t.Printed options node (Record.line
      { mark := Mark.of node (t.find selector), tag := t.tagLabel node, selector }) := by
  obtain ⟨e, he⟩ := (t.isElement_iff node).mp hnode
  have htag : t.tagLabel node = "<" ++ e.tag ++ ">" := by rw [tagLabel, he]
  rw [htag]
  exact ⟨e, selector, he, h, told_line t node e.tag selector⟩

end One

/-! ## All lines -/

/-- These are the lines for the elements up to the first one without a selector, which is
    `failed`. -/
def Reported (t : Tree) (options : Options) (nodes : List NodeId) (lines : List String)
    (failed : Option NodeId) : Prop :=
  ∃ printed rest, nodes = printed ++ rest ∧ List.Forall₂ (t.Printed options) printed lines ∧
    failed = rest.head? ∧ ∀ node ∈ failed, ∃ cause, t.selectorOf options node = .error cause

section Run

variable {t : Tree} {options : Options}

theorem written_of_printed {nodes : List NodeId} {lines : List String}
    (h : List.Forall₂ (t.Printed options) nodes lines) :
    ∀ node ∈ nodes, ∃ selector, t.selectorOf options node = .ok selector := by
  have hboth : List.Forall₂ (fun node _ =>
      (∃ selector, t.selectorOf options node = .ok selector) ∧ True) nodes lines := by
    apply h.imp
    rintro node line ⟨e, selector, -, hselector, -⟩
    exact ⟨⟨selector, hselector⟩, trivial⟩
  exact ((List.forall₂_and_left _ _).mp hboth).1

theorem Reported.fails {node : NodeId} (rest : List NodeId) {cause : SynthesisError}
    (h : t.selectorOf options node = .error cause) :
    t.Reported options (node :: rest) [] (some node) := by
  refine ⟨[], node :: rest, rfl, List.Forall₂.nil, rfl, ?_⟩
  rintro node' ⟨⟩
  exact ⟨cause, h⟩

theorem Reported.cons {node : NodeId} {nodes : List NodeId} {line : String} {lines : List String}
    {failed : Option NodeId} (hline : t.Printed options node line)
    (h : t.Reported options nodes lines failed) :
    t.Reported options (node :: nodes) (line :: lines) failed := by
  obtain ⟨printed, rest, rfl, hlines, hfailed⟩ := h
  exact ⟨node :: printed, rest, rfl, List.Forall₂.cons hline hlines, hfailed⟩

/-- The run lemma. -/
theorem reported_records (t : Tree) (options : Options) {nodes : List NodeId}
    (hnodes : ∀ node ∈ nodes, t.isElement node = true) (log : WarningLog) :
    t.Reported options nodes (((t.records options nodes).run log).1.1.map Record.line)
      ((t.records options nodes).run log).1.2 := by
  induction nodes generalizing log with
  | nil => exact ⟨[], [], rfl, List.Forall₂.nil, rfl, by rintro node ⟨⟩⟩
  | cons node rest ih =>
      have hnode := hnodes node List.mem_cons_self
      have hrun := record_run hnode options log
      have hrest := ih fun other hother => hnodes other (List.mem_cons_of_mem _ hother)
      rw [records, StateT.run_bind]
      generalize (t.record options node).run log = answered at hrun ⊢
      obtain ⟨answer, log'⟩ := answered
      dsimp only at hrun
      cases hselector : t.selectorOf options node with
      | error cause =>
          rw [hselector] at hrun
          subst hrun
          exact Reported.fails rest hselector
      | ok selector =>
          rw [hselector] at hrun
          subst hrun
          exact Reported.cons (printed_of_selectorOf hnode options hselector) (hrest log')

/-- A report fails if and only if some element has no selector. -/
theorem Reported.isSome_iff {nodes : List NodeId} {lines : List String} {failed : Option NodeId}
    (h : t.Reported options nodes lines failed) :
    failed.isSome = true ↔ ∃ node ∈ nodes, ∃ cause, t.selectorOf options node = .error cause := by
  obtain ⟨printed, rest, rfl, hlines, rfl, hfails⟩ := h
  constructor
  · intro hsome
    obtain ⟨node, hnode⟩ := Option.isSome_iff_exists.mp hsome
    exact ⟨node, List.mem_append_right _ (List.mem_of_head? hnode), hfails node hnode⟩
  · rintro ⟨node, hnode, cause, hcause⟩
    -- A printed element has a selector, so the one without is left over.
    have hwritten := written_of_printed hlines
    rcases List.mem_append.mp hnode with hprinted | hrest
    · obtain ⟨selector, hselector⟩ := hwritten node hprinted
      rw [hcause] at hselector
      cases hselector
    · cases rest with
      | nil => cases hrest
      | cons _ _ => rfl

end Run

/-! ## Documents without NUL -/

/-- In a loaded document with tag names and without NUL every element has a selector that finds it
    alone. -/
theorem IsDocument.selectorOf_only {t : Tree} (ht : t.IsDocument) (hsize : t.FitsMemory)
    (htags : t.Tagged) (hfree : t.NulFree) {node : NodeId} (hnode : t.isElement node = true)
    {options : Options} (hpath : options.isUnique = false) :
    ∃ selector, t.selectorOf options node = .ok selector ∧ t.find selector = [node] := by
  rcases answers_synthesize_only ht hsize htags hnode hpath with
    ⟨cause, -, hnul⟩ | ⟨selector, hanswer, honly⟩
  · exact absurd hfree hnul
  · exact ⟨selector, hanswer {}, honly.find_eq ht hnode⟩

/-- Then no line is left out, and every line has the tick. -/
theorem Reported.all_ticked {t : Tree} {options : Options} {nodes : List NodeId}
    {lines : List String} {failed : Option NodeId} (h : t.Reported options nodes lines failed)
    (honly : ∀ node ∈ nodes,
      ∃ selector, t.selectorOf options node = .ok selector ∧ t.find selector = [node]) :
    failed = none ∧ List.Forall₂ (t.Ticked options) nodes lines := by
  have hnone : failed = none := by
    rw [← Option.not_isSome_iff_eq_none, h.isSome_iff]
    rintro ⟨node, hnode, cause, hcause⟩
    obtain ⟨selector, hselector, -⟩ := honly node hnode
    rw [hcause] at hselector
    cases hselector
  -- So nothing is left over, and all of them are printed.
  obtain ⟨printed, rest, rfl, hlines, hrest, -⟩ := h
  rw [hnone, eq_comm, List.head?_eq_none_iff] at hrest
  rw [hrest, List.append_nil] at honly ⊢
  refine ⟨hnone, ((List.forall₂_and_left _ _).mpr ⟨honly, hlines⟩).imp ?_⟩
  rintro node line ⟨⟨selector, hselector, hfind⟩, e, selector', he, hselector', htold⟩
  rw [hselector] at hselector'
  cases hselector'
  exact ⟨e, selector, he, hselector, hfind, htold.tick_iff.mpr hfind⟩

end Tree

/-! ## The command -/

theorem Command.run_select {markup : Markup} {json : String} {t : Tree}
    (hload : Tree.load markup json = .ok t) (file : String) (target : Target) (options : Options) :
    Command.run (some json) (.select file target options markup) = selectIn t target options := by
  rw [Command.run, hload]

theorem lines_selectIn_all (t : Tree) (options : Options) : (selectIn t .all options).lines =
    ((t.records options t.elements).run {}).1.1.map Record.line :=
  rfl

theorem failure?_selectIn_all (t : Tree) (options : Options) :
    (selectIn t .all options).failure? =
      ((t.records options t.elements).run {}).1.2.map .noSelector :=
  rfl

/-- On a loaded document the command lists every element once in tree order, prints a line for
    each up to the first one without a selector, and fails if and only if there is one. With tag
    names and without NUL there is none, and every line has the tick. -/
theorem Command.run_selectAll {markup : Markup} {json : String} {t : Tree}
    (hload : Tree.load markup json = .ok t) (file : String) (featureCount : Nat) (minDepth : Int64)
    (toRoot : Bool) :
    let options : Options := { featureCount, minDepth, toRoot }
    let outcome := Command.run (some json) (.select file .all options markup)
    (t.elements.Nodup ∧ (∀ node, node ∈ t.elements ↔ t.isElement node = true) ∧
      t.elements.Pairwise t.Precedes) ∧
    (∃ printed rest lines, t.elements = printed ++ rest ∧
      List.Forall₂ (t.Printed options) printed lines ∧
      outcome.output = String.join (lines.map (· ++ "\n")) ∧
      outcome.failure? = rest.head?.map .noSelector ∧
      ∀ node ∈ rest.head?, ∃ cause, t.selectorOf options node = .error cause) ∧
    (outcome.exitCode = 0 ↔
      ∀ node ∈ t.elements, ∀ cause, t.selectorOf options node ≠ .error cause) ∧
    (t.FitsMemory → t.Tagged → t.NulFree → outcome.exitCode = 0 ∧
      ∃ lines, outcome.output = String.join (lines.map (· ++ "\n")) ∧
        List.Forall₂ (t.Ticked options) t.elements lines) := by
  intro options outcome
  have ht := Tree.isDocument_of_load hload
  have hreported := Tree.reported_records t options
    (fun node hnode => (ht.mem_elements_iff node).mp hnode) {}
  have houtcome : outcome = selectIn t .all options := run_select hload file .all options
  have hlines : outcome.lines = ((t.records options t.elements).run {}).1.1.map Record.line := by
    rw [houtcome, lines_selectIn_all]
  have hfailure : outcome.failure? =
      ((t.records options t.elements).run {}).1.2.map .noSelector := by
    rw [houtcome, failure?_selectIn_all]
  rw [← hlines] at hreported
  generalize ((t.records options t.elements).run {}).1.2 = failed at hreported hfailure
  have hexit : outcome.exitCode = 0 ↔ failed = none := by
    rw [Outcome.exitCode, hfailure, Option.isSome_map]
    cases failed <;> simp
  refine ⟨⟨ht.linked.nodup_elements, ht.mem_elements_iff, ht.linked.pairwise_elements⟩, ?_, ?_, ?_⟩
  · obtain ⟨printed, rest, hsplit, hprinted, rfl, hfails⟩ := hreported
    exact ⟨printed, rest, outcome.lines, hsplit, hprinted, rfl, hfailure, hfails⟩
  · rw [hexit, ← Option.not_isSome_iff_eq_none, hreported.isSome_iff]
    push Not
    rfl
  · intro hsize htags hfree
    obtain ⟨hnone, hall⟩ := hreported.all_ticked fun node hnode =>
      ht.selectorOf_only hsize htags hfree ((ht.mem_elements_iff node).mp hnode) rfl
    exact ⟨hexit.mpr hnone, outcome.lines, rfl, hall⟩

/-- A list of two links, which only their places tell apart. -/
theorem Command.run_selectAll_two_links :
    let json := "\x7b\"tag\":\"ul\",\"children\":[\x7b\"tag\":\"a\"\x7d,\x7b\"tag\":\"a\"\x7d]\x7d"
    let t := Tree.ofSketch .html (.element { tag := "ul" }
      [.element { tag := "a" } [], .element { tag := "a" } []])
    let outcome := Command.run (some json) (.select "page.json" .all {} .html)
    Tree.load .html json = .ok t ∧ t.FitsMemory ∧ t.Tagged ∧ t.NulFree ∧
      outcome.exitCode = 0 ∧
      (∃ lines, outcome.output = String.join (lines.map (· ++ "\n")) ∧
        List.Forall₂ (t.Ticked {}) t.elements lines) ∧
      outcome.output =
        "\x1b[32m✓\x1b[39m \x1b[2m<ul>\x1b[0m \x1b[1mul\x1b[0m\n" ++
        "\x1b[32m✓\x1b[39m \x1b[2m<a>\x1b[0m \x1b[1mul > a:nth-child(1)\x1b[0m\n" ++
        "\x1b[32m✓\x1b[39m \x1b[2m<a>\x1b[0m \x1b[1mul > a:nth-child(2)\x1b[0m\n" := by
  intro json t outcome
  have hload : Tree.load .html json = .ok t := by
    subst json t
    decide +kernel
  have hsize : t.FitsMemory := by
    rw [Tree.FitsMemory, show t.size = 4 from rfl]
    decide
  have htags : t.Tagged := Tree.tagged_of_data (by decide)
  have hfree : t.NulFree := Tree.nulFree_of_data (by decide)
  have houtput : outcome.output =
      "\x1b[32m✓\x1b[39m \x1b[2m<ul>\x1b[0m \x1b[1mul\x1b[0m\n" ++
      "\x1b[32m✓\x1b[39m \x1b[2m<a>\x1b[0m \x1b[1mul > a:nth-child(1)\x1b[0m\n" ++
      "\x1b[32m✓\x1b[39m \x1b[2m<a>\x1b[0m \x1b[1mul > a:nth-child(2)\x1b[0m\n" := by
    subst outcome json
    decide +kernel
  obtain ⟨-, -, -, hall⟩ := Command.run_selectAll hload "page.json" 2 1 false
  obtain ⟨hexit, hticked⟩ := hall hsize htags hfree
  exact ⟨hload, hsize, htags, hfree, hexit, hticked, houtput⟩

-- Without a tag name the selector does not read, and the line has the cross.
example :
    (Command.run (some "\x7b\"tag\":\"ul\",\"children\":[\x7b\"tag\":\"\"\x7d]\x7d")
      (.select "page.json" .all {} .html)).lines = [tickLine "ul" "ul", crossLine "" "ul > "] := by
  decide +kernel

end UniqueSelector
