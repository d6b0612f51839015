/-
  UniqueSelector.Proofs.Synthesis.Answers

  What a search answers. The warnings a host has taken so far have no part in it
  where the host answers from a tree, so a search has one answer, whatever the
  log: `Answers x r`. One lemma for each question says what its answer is.

    * `Answers.bind`, `Answers.bind_error` — how answers go together.
    * `answers_picksAny`, `answers_tieBreaker`, `answers_becomesUnique` — the
      questions about a fragment that reads as a selector.
    * `Tree.OwnId`, `answers_idSelector?` — the id that stands for an element.
-/

import UniqueSelector.Synthesis.Ascent

namespace UniqueSelector.Synthesis

open Identifier

/-- The search ends with `r` from every state of its host. -/
def Answers {σ α : Type} (x : Search σ α) (r : Except SynthesisError α) : Prop :=
  ∀ state : σ, (x.run.run state).1 = r

section Rules

variable {σ α β : Type}

theorem answers_pure (a : α) : Answers (pure a : Search σ α) (.ok a) := by
  intro state
  rfl

theorem answers_liftEscape {result : Except EscapeError α} {a : α} (h : result = .ok a) :
    Answers (liftEscape result : Search σ α) (.ok a) := by
  intro state
  rw [h]
  rfl

theorem answers_liftEscape_error {result : Except EscapeError α} {cause : EscapeError}
    (h : result = .error cause) :
    Answers (liftEscape result : Search σ α) (.error (.escape cause)) := by
  intro state
  rw [h]
  rfl

/-- What comes first leaves its state to what comes next. -/
theorem run_bind_ok {x : Search σ α} {f : α → Search σ β} {state state' : σ} {a : α}
    (hx : x.run.run state = (.ok a, state')) : (x >>= f).run.run state = (f a).run.run state' := by
  show (ExceptT.bindCont f (x.run.run state).1).run (x.run.run state).2 = _
  rw [hx]
  rfl

theorem run_bind_error {x : Search σ α} {f : α → Search σ β} {state state' : σ}
    {cause : SynthesisError} (hx : x.run.run state = (.error cause, state')) :
    (x >>= f).run.run state = (.error cause, state') := by
  show (ExceptT.bindCont f (x.run.run state).1).run (x.run.run state).2 = _
  rw [hx]
  rfl

theorem Answers.bind {x : Search σ α} {f : α → Search σ β} {a : α} {r : Except SynthesisError β}
    (hx : Answers x (.ok a)) (hf : Answers (f a) r) : Answers (x >>= f) r := by
  intro state
  rw [run_bind_ok (Prod.ext (hx state) rfl)]
  exact hf _

theorem Answers.bind_error {x : Search σ α} {f : α → Search σ β} {cause : SynthesisError}
    (hx : Answers x (.error cause)) : Answers (x >>= f) (.error cause) := by
  intro state
  rw [run_bind_error (Prod.ext (hx state) rfl)]

theorem Answers.unique (state : σ) {x : Search σ α} {r r' : Except SynthesisError α}
    (h : Answers x r) (h' : Answers x r') : r = r' := by
  rw [← h state, h' state]

theorem answers_lift (x : StateM σ α) {a : α} (h : ∀ state, (x.run state).1 = a) :
    Answers (liftM x : Search σ α) (.ok a) := by
  intro state
  show Except.ok (x.run state).1 = _
  rw [h state]

end Rules

/-! ## Questions about a fragment -/

variable (t : Tree)

theorem answers_picksOut (id : NodeId) (text : String) :
    Answers (picksOut (Host.ofTree t) id text) ((t.check id text).mapError .query) := by
  intro state
  rfl

theorem check_of_reads {text : String} {s : Selector} (h : Selector.ofString text = .ok s)
    (id : NodeId) : t.check id text = .ok (t.picks s id) := by
  rw [Tree.check, h]

theorem find_of_reads {text : String} {s : Selector} (h : Selector.ofString text = .ok s) :
    t.find text = t.select s := by
  rw [Tree.find, h]

theorem answers_picksAny {text : String} {s : Selector} (h : Selector.ofString text = .ok s)
    (ids : List NodeId) :
    Answers (picksAny (Host.ofTree t) text ids) (.ok (ids.any (t.picks s))) := by
  induction ids with
  | nil => exact answers_pure false
  | cons id rest ih =>
      have hfirst := answers_picksOut t id text
      rw [check_of_reads t h] at hfirst
      rw [picksAny, List.any_cons]
      refine Answers.bind hfirst ?_
      cases t.picks s id with
      | true => exact answers_pure true
      | false => exact ih

theorem answers_isUnique (text : String) :
    Answers (liftM ((Host.ofTree t).isUnique text) : Search WarningLog Bool)
      (.ok ((t.find text).length == 1)) :=
  answers_lift _ fun _ => rfl

theorem answers_becomesUnique (known : Bool) (text : String) :
    Answers (becomesUnique (Host.ofTree t) known text)
      (.ok (known || (t.find text).length == 1)) := by
  cases known with
  | true => exact answers_pure true
  | false => exact answers_isUnique t text

/-- The element siblings of an element besides itself. -/
def others (t : Tree) (node : NodeId) : List NodeId :=
  (t.elementSiblings node).filter (· != node)

/-- The place of the element where some other sibling is picked out too, else nothing. -/
def tie (t : Tree) (node : NodeId) (s : Selector) : String :=
  if (others t node).any (t.picks s) then placeFragment t node else ""

theorem answers_tieBreaker (node : NodeId) {text : String} {s : Selector}
    (h : Selector.ofString text = .ok s) :
    Answers (tieBreaker (Host.ofTree t) t node text) (.ok (tie t node s)) := by
  rw [tieBreaker, tie]
  refine Answers.bind (answers_picksAny t h (others t node)) ?_
  cases (others t node).any (t.picks s) with
  | true => exact answers_pure _
  | false => exact answers_pure _

/-- Siblings cannot be told apart by what is no selector. -/
theorem answers_tieBreaker_unread (node : NodeId) {text : String} {cause : SelectorError}
    (h : Selector.ofString text = .error cause) :
    Answers (tieBreaker (Host.ofTree t) t node text)
      (if others t node = [] then .ok "" else .error (.query (.invalidSelector text cause))) := by
  have hothers : (t.elementSiblings node).filter (· != node) = others t node := rfl
  rw [tieBreaker, hothers]
  cases others t node with
  | nil => exact Answers.bind (answers_pure false) (answers_pure "")
  | cons id rest =>
      have hfirst := answers_picksOut t id text
      rw [Tree.check, h] at hfirst
      exact Answers.bind_error (Answers.bind_error hfirst)

/-! ## The id of an element -/

/-- The id of the element is no volatile one, and `selector`, which names it, finds one element. -/
structure OwnId (t : Tree) (node : NodeId) (id selector : String) : Prop where
  has : t.attribute? node "id" = some id
  ne_empty : id ≠ ""
  written : ∃ e, escape id = .ok e ∧ selector = "#" ++ e
  steady : Text.contains selector volatileIdMark = false
  found : (t.find selector).length = 1

theorem OwnId.selector_eq {t : Tree} {node : NodeId} {id id' selector e : String}
    (h : OwnId t node id selector) (hhas : t.attribute? node "id" = some id')
    (he : escape id' = .ok e) : selector = "#" ++ e := by
  obtain ⟨e', he', hselector⟩ := h.written
  have hid := h.has
  rw [hhas] at hid
  cases hid
  rw [he] at he'
  cases he'
  exact hselector

/-- What asking for the id of an element comes to: it cannot be written, it stands for the
    element, or it does not. -/
inductive IdAnswer (t : Tree) (node : NodeId) : Prop
  | escapes {cause : EscapeError} {id : String}
      (hanswer : Answers (idSelector? (Host.ofTree t) t node) (.error (.escape cause)))
      (hhas : t.attribute? node "id" = some id) (hnul : '\x00' ∈ id.toList)
  | own {id selector : String}
      (hanswer : Answers (idSelector? (Host.ofTree t) t node) (.ok (some selector)))
      (hown : OwnId t node id selector)
  | none (hanswer : Answers (idSelector? (Host.ofTree t) t node) (.ok none))
      (hnone : ∀ id selector, ¬ OwnId t node id selector)

section Present

variable {t} {node : NodeId} {id e : String}
  (hid : (t.attribute? node "id").filter (· != "") = some id)

include hid

theorem answers_idSelector?_error {cause : EscapeError} (he : escape id = .error cause) :
    Answers (idSelector? (Host.ofTree t) t node) (.error (.escape cause)) := by
  rw [idSelector?, hid]
  exact Answers.bind_error (answers_liftEscape_error he)

theorem answers_idSelector?_volatile (he : escape id = .ok e)
    (hvolatile : Text.contains ("#" ++ e) volatileIdMark = true) :
    Answers (idSelector? (Host.ofTree t) t node) (.ok none) := by
  rw [idSelector?, hid]
  refine Answers.bind (answers_liftEscape he) ?_
  rw [if_pos hvolatile]
  exact Answers.bind (answers_lift _ fun _ => rfl) (answers_pure none)

theorem answers_idSelector?_steady (he : escape id = .ok e)
    (hsteady : Text.contains ("#" ++ e) volatileIdMark = false) :
    Answers (idSelector? (Host.ofTree t) t node)
      (.ok (if (t.find ("#" ++ e)).length == 1 then some ("#" ++ e) else none)) := by
  rw [idSelector?, hid]
  refine Answers.bind (answers_liftEscape he) ?_
  rw [if_neg (by rw [hsteady]; exact Bool.false_ne_true)]
  refine Answers.bind (answers_isUnique t ("#" ++ e)) ?_
  split
  · exact answers_pure _
  · exact answers_pure _

end Present

theorem answers_idSelector? (node : NodeId) : IdAnswer t node := by
  cases hid : (t.attribute? node "id").filter (· != "") with
  | none =>
      refine IdAnswer.none ?_ fun id selector hown => ?_
      · rw [idSelector?, hid]
        exact answers_pure none
      · rw [hown.has, Option.filter_some_pos (by simpa using hown.ne_empty)] at hid
        cases hid
  | some id =>
      obtain ⟨hhas, hne⟩ := Option.filter_eq_some_iff.mp hid
      cases he : escape id with
      | error cause =>
          refine IdAnswer.escapes (answers_idSelector?_error hid he) hhas ?_
          apply Decidable.byContradiction
          intro hnul
          rw [escape_eq_ok hnul] at he
          cases he
      | ok e =>
          -- Whatever selector is claimed for the id, it is the one that is looked at here.
          by_cases hvolatile : Text.contains ("#" ++ e) volatileIdMark = true
          · refine IdAnswer.none (answers_idSelector?_volatile hid he hvolatile) ?_
            intro id' selector hown
            have hsteady := hown.steady
            rw [hown.selector_eq hhas he, hvolatile] at hsteady
            cases hsteady
          · rw [Bool.not_eq_true] at hvolatile
            have hanswer := answers_idSelector?_steady hid he hvolatile
            by_cases hfound : (t.find ("#" ++ e)).length = 1
            · rw [if_pos (by simpa using hfound)] at hanswer
              exact IdAnswer.own hanswer
                { has := hhas
                  ne_empty := by simpa using hne
                  written := ⟨e, he, rfl⟩
                  steady := hvolatile
                  found := hfound }
            · rw [if_neg (by simpa using hfound)] at hanswer
              refine IdAnswer.none hanswer ?_
              intro id' selector hown
              have hlength := hown.found
              rw [hown.selector_eq hhas he] at hlength
              exact hfound hlength

end UniqueSelector.Synthesis
