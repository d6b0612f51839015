/-
  UniqueSelector.Proofs.Synthesis.ClosedForm

  The climb without the climb: which levels it comes by and what it writes, said
  of the elements on the way up by their numbers. Level 0 is the element itself.

    * `Tree.Line` — the elements on the way up; `Tree.exists_line_of_acyclic`.
    * `Stops` — the levels where the climb may end. It ends at the first of them.
    * `Writes` — the text of a level.
    * `At` — the invariant: a state of the climb holds what the closed form says
      about the levels below. `At.step` is the step lemma, `climb_closed` the run
      lemma; the induction is on the bound of the climb.

  The counter of levels is a signed word that stays at the least one, and the
  climb may end only where it is zero. It is zero at the level that was asked for
  and nowhere else, even where that level does not exist.
-/

import UniqueSelector.Proofs.Dom.Loading
import UniqueSelector.Proofs.Dom.Order
import UniqueSelector.Proofs.Synthesis.Fragments
import UniqueSelector.Proofs.Synthesis.Soundness
import Mathlib.Data.Finset.Card
import Mathlib.Logic.Function.Iterate
import Mathlib.Order.Bounds.Basic

namespace UniqueSelector

/-! ## The way up -/

/-- The elements on the way up from `n 0`: each is the parent element of the one before it, and
    `n r` has no parent element. -/
structure Tree.Line (t : Tree) (n : Nat → NodeId) (r : Nat) : Prop where
  isElement : t.isElement (n 0) = true
  parent : ∀ i < r, t.parentElement? (n i) = some (n (i + 1))
  top : t.parentElement? (n r) = none

namespace Tree

theorem Line.isElement_at {t : Tree} {n : Nat → NodeId} {r : Nat} (h : t.Line n r) {i : Nat}
    (hi : i ≤ r) : t.isElement (n i) = true := by
  cases i with
  | zero => exact h.isElement
  | succ i => exact (Synthesis.parent?_of_parentElement? (h.parent i hi)).2

/-- The parent element, or the node itself where there is none. -/
def up (t : Tree) (id : NodeId) : NodeId :=
  (t.parentElement? id).getD id

theorem up_of_parentElement? {t : Tree} {id parent : NodeId}
    (h : t.parentElement? id = some parent) : t.up id = parent := by
  rw [up, h]
  rfl

theorem isElement_up {t : Tree} {id : NodeId} (h : t.isElement id = true) :
    t.isElement (t.up id) = true := by
  cases hparent : t.parentElement? id with
  | none =>
      rw [up, hparent]
      exact h
  | some parent =>
      rw [up_of_parentElement? hparent]
      exact (Synthesis.parent?_of_parentElement? hparent).2

theorem isElement_iterate_up {t : Tree} {node : NodeId} (h : t.isElement node = true) (i : Nat) :
    t.isElement (t.up^[i] node) = true := by
  induction i with
  | zero => exact h
  | succ i ih =>
      rw [Function.iterate_succ_apply']
      exact isElement_up ih

section Up

variable {t : Tree} {node : NodeId}

theorem parentElement?_iterate_up {i : Nat} (h : t.parentElement? (t.up^[i] node) ≠ none) :
    t.parentElement? (t.up^[i] node) = some (t.up^[i + 1] node) := by
  obtain ⟨parent, hparent⟩ := Option.ne_none_iff_exists'.mp h
  rw [Function.iterate_succ_apply', up_of_parentElement? hparent, hparent]

theorem above_iterate_up {i j : Nat} (hij : i < j)
    (hup : ∀ k < j, t.parentElement? (t.up^[k] node) ≠ none) :
    t.Above (t.up^[j] node) (t.up^[i] node) := by
  induction j with
  | zero => cases hij
  | succ j ih =>
      have hparent := Synthesis.parent?_of_parentElement?
        (parentElement?_iterate_up (hup j (Nat.lt_succ_self j)))
      rcases Nat.lt_or_eq_of_le (Nat.le_of_lt_succ hij) with hlt | rfl
      · exact (ih hlt fun k hk => hup k (Nat.lt_succ_of_lt hk)).tail hparent.1
      · exact Relation.TransGen.single hparent.1

/-- Without circles the way up ends: else it would meet one of the elements again. -/
theorem exists_top_of_acyclic (hacyclic : ∀ id, ¬ t.Above id id) (hnode : t.isElement node = true) :
    ∃ i < t.size, t.parentElement? (t.up^[i] node) = none := by
  by_contra hnever
  have hup : ∀ k < t.size, t.parentElement? (t.up^[k] node) ≠ none := by
    intro k hk hnone
    exact hnever ⟨k, hk, hnone⟩
  have hcard : (Finset.range t.size).card < (Finset.range (t.size + 1)).card := by
    rw [Finset.card_range, Finset.card_range]
    exact Nat.lt_succ_self _
  have hmaps : Set.MapsTo (fun k => t.up^[k] node) (Finset.range (t.size + 1))
      (Finset.range t.size) := by
    intro k _
    exact Finset.mem_coe.mpr (Finset.mem_range.mpr
      (lt_size_of_isElement (isElement_iterate_up hnode k)))
  obtain ⟨i, hi, j, hj, hne, heq⟩ := Finset.exists_ne_map_eq_of_card_lt_of_maps_to hcard hmaps
  wlog hij : i < j generalizing i j
  · exact this j hj i hi hne.symm heq.symm (Nat.lt_of_le_of_ne (Nat.le_of_not_lt hij) hne.symm)
  -- The later of two places at one element is above the earlier.
  have habove : t.Above (t.up^[j] node) (t.up^[i] node) := above_iterate_up hij
    fun k hk => hup k (Nat.lt_of_lt_of_le hk (Nat.le_of_lt_succ (Finset.mem_range.mp hj)))
  rw [← heq] at habove
  exact hacyclic _ habove

/-- Every element has a way up, where no node is above itself. -/
theorem exists_line_of_acyclic (hacyclic : ∀ id, ¬ t.Above id id)
    (hnode : t.isElement node = true) : ∃ n r, n 0 = node ∧ t.Line n r ∧ r < t.size := by
  have hends := exists_top_of_acyclic hacyclic hnode
  obtain ⟨hlt, htop⟩ := Nat.find_spec hends
  refine ⟨fun i => t.up^[i] node, Nat.find hends, rfl, ?_, hlt⟩
  exact
    { isElement := hnode
      parent := by
        intro i hi
        apply parentElement?_iterate_up
        intro hnone
        exact Nat.find_min hends hi ⟨Nat.lt_trans hi hlt, hnone⟩
      top := htop }

theorem Linked.exists_line (ht : t.Linked) (hnode : t.isElement node = true) :
    ∃ n r, n 0 = node ∧ t.Line n r := by
  obtain ⟨n, r, hstart, hline, -⟩ := exists_line_of_acyclic ht.acyclic hnode
  exact ⟨n, r, hstart, hline⟩

end Up

/-- The elements of a line are the first on the way up. -/
theorem Line.prefix_ancestors {t : Tree} (ht : t.Linked) {n : Nat → NodeId} {r e : Nat}
    (h : t.Line n r) (he : e ≤ r) :
    (List.range (e + 1)).map n <+: n 0 :: t.ancestors (n 0) := by
  induction e generalizing n r with
  | zero => exact List.cons_prefix_cons.mpr ⟨rfl, List.nil_prefix⟩
  | succ e ih =>
      obtain ⟨r, rfl⟩ := Nat.exists_eq_succ_of_ne_zero (Nat.ne_zero_of_lt he)
      -- The line from the parent on.
      have hrest : t.Line (fun i => n (i + 1)) r :=
        { isElement := h.isElement_at (Nat.le_add_left 1 r)
          parent := fun i hi => h.parent (i + 1) (Nat.succ_lt_succ hi)
          top := h.top }
      have hparent := Synthesis.parent?_of_parentElement? (h.parent 0 (Nat.succ_pos r))
      rw [List.range_succ_eq_map, List.map_cons, List.map_map,
        ht.ancestors_of_parent? hparent.1]
      exact List.cons_prefix_cons.mpr ⟨rfl, ih hrest (Nat.le_of_succ_le_succ he)⟩

end Tree

namespace Synthesis

/-! ## The levels -/

/-- How many features name the element of a level. -/
def budget (options : Options) (i : Nat) : Nat :=
  if i = 0 then max options.featureCount 1 else 1

section Levels

variable (t : Tree) (n : Nat → NodeId) (options : Options)

/-- The fragment of the level finds one element, or an id stands for its element. -/
def Distinct (i : Nat) : Prop :=
  IdClosed t (n i) ∨
    ∃ fragment, Fragment t (n i) (budget options i) fragment ∧ (t.find fragment).length = 1

/-- The path is unique by this level. -/
def UniqueBy (i : Nat) : Prop :=
  options.isUnique = true ∨ ∃ j ≤ i, Distinct t n options j

/-- The climb may end at this level; `r` is the top one. -/
def Stops (r i : Nat) : Prop :=
  if options.toRoot then i = r
  else IdClosed t (n i) ∨ ((i : Int) = options.minDepth.toInt ∧ UniqueBy t n options i) ∨ i = r

/-- The mark of the document element is due at this level. -/
def Marked (i : Nat) : Prop :=
  t.documentElement? = some (n i) ∧ ¬ IdClosed t (n i) ∧ ¬ UniqueBy t n options i

/-- What the level writes. -/
inductive Writes (i : Nat) : String → Prop
  | marked {fragment : String} (h : Fragment t (n i) (budget options i) fragment)
      (hmark : Marked t n options i) : Writes i (fragment ++ ":root")
  | plain {fragment : String} (h : Fragment t (n i) (budget options i) fragment)
      (hmark : ¬ Marked t n options i) : Writes i fragment

end Levels

theorem stops_top (t : Tree) (n : Nat → NodeId) (options : Options) (r : Nat) :
    Stops t n options r r := by
  rw [Stops]
  split
  · rfl
  · exact Or.inr (Or.inr rfl)

/-- One answer of the host decides it, since the fragment of an id finds one element too. -/
theorem Distinct.iff_length {t : Tree} {n : Nat → NodeId} {options : Options} {i : Nat}
    {fragment : String} (h : Fragment t (n i) (budget options i) fragment) :
    Distinct t n options i ↔ (t.find fragment).length = 1 := by
  constructor
  · rintro (hclosed | ⟨fragment', h', hlength⟩)
    · exact h.length_find_of_idClosed hclosed
    · rw [h.unique h']
      exact hlength
  · intro hlength
    exact Or.inr ⟨fragment, h, hlength⟩

theorem uniqueBy_iff (t : Tree) (n : Nat → NodeId) (options : Options) (i : Nat) :
    UniqueBy t n options i ↔
      (options.isUnique = true ∨ ∃ j < i, Distinct t n options j) ∨ Distinct t n options i := by
  simp only [UniqueBy, ← Nat.lt_succ_iff, Nat.exists_lt_succ_right, or_assoc]

/-! ## The counter -/

theorem toInt_oneLess (depth : Int64) :
    (oneLess depth).toInt = max (depth.toInt - 1) (-2 ^ 63) := by
  have hlow := depth.le_toInt
  have hhigh := depth.toInt_lt
  rw [oneLess]
  split
  · rename_i h
    rw [eq_of_beq h, Int64.toInt_minValue]
    rfl
  · rename_i h
    have hne : depth.toInt ≠ -2 ^ 63 := by
      intro heq
      apply h
      rw [← Int64.toInt_minValue, Int64.toInt_inj] at heq
      simp [heq]
    rw [Int64.toInt_sub, Int64.toInt_one, Int.bmod_eq_of_le (by omega) (by omega)]
    omega

/-! ## The invariant -/

/-- The state of the climb at a level holds what the levels below have come to. -/
structure At (t : Tree) (n : Nat → NodeId) (options : Options) (i : Nat) (a : Ascent) : Prop where
  node : a.node = n i
  -- The counter is held at the least word, far from zero.
  depth : a.depth.toInt = max (options.minDepth.toInt - i) (-2 ^ 63)
  isUnique : a.isUnique = true ↔ options.isUnique = true ∨ ∃ j < i, Distinct t n options j
  featureCount : max a.featureCount 1 = budget options i
  toRoot : a.toRoot = options.toRoot
  below : List.Forall₂ (Writes t n options) (List.range i).reverse a.below

theorem at_start (t : Tree) (n : Nat → NodeId) (options : Options) :
    At t n options 0 (Ascent.start (n 0) options) where
  node := rfl
  depth := by
    have hlow := options.minDepth.le_toInt
    simp only [Ascent.start]
    omega
  isUnique := by simp [Ascent.start]
  featureCount := by simp [Ascent.start, budget]
  toRoot := rfl
  below := List.Forall₂.nil

theorem At.depth_eq_zero_iff {t : Tree} {n : Nat → NodeId} {options : Options} {i : Nat}
    {a : Ascent} (h : At t n options i a) : a.depth = 0 ↔ (i : Int) = options.minDepth.toInt := by
  have hdepth := h.depth
  rw [← Int64.toInt_inj, Int64.toInt_zero]
  omega

/-- No step of the climb from `a` on fails. -/
def Smooth (t : Tree) (a : Ascent) : Prop :=
  ∀ b, Reaches t a b → ∀ cause, ¬ Answers (b.step (Host.ofTree t) t) (.error cause)

/-- One step, as the closed form has it: what the level writes, whether the path is unique by it,
    and whether the climb may go on for all the level knows. -/
structure Advances (t : Tree) (n : Nat → NodeId) (options : Options) (i : Nat) (a : Ascent)
    (text : String) (isUnique goesOn : Bool) : Prop where
  step : Answers (a.step (Host.ofTree t) t) (.ok (a.advance t text isUnique goesOn))
  writes : Writes t n options i text
  isUnique_iff : isUnique = true ↔ UniqueBy t n options i
  ends_iff : goesOn = false ↔
    IdClosed t (n i) ∨ ((i : Int) = options.minDepth.toInt ∧ UniqueBy t n options i)

section Step

variable {t : Tree} {n : Nat → NodeId} {options : Options} {i : Nat} {a : Ascent}

theorem writes_topMark {fragment : String} {isUnique : Bool} (hopen : ¬ IdClosed t (n i))
    (h : Fragment t (n i) (budget options i) fragment)
    (hunique : isUnique = true ↔ UniqueBy t n options i) :
    Writes t n options i (topMark t (n i) fragment isUnique) := by
  have hmarked : Marked t n options i ↔ isUnique = false ∧ t.documentElement? = some (n i) := by
    rw [Marked, ← hunique, Bool.not_eq_true]
    tauto
  by_cases hmark : isUnique = false ∧ t.documentElement? = some (n i)
  · rw [topMark_of_marked hmark]
    exact Writes.marked h (hmarked.mpr hmark)
  · rw [topMark_of_not_marked hmark]
    exact Writes.plain h fun hmark' => hmark (hmarked.mp hmark')

theorem At.advances (h : At t n options i a) (hnode : t.isElement (n i) = true)
    (hsmooth : Smooth t a) :
    ∃ text isUnique goesOn, Advances t n options i a text isUnique goesOn := by
  have hself := hsmooth a Relation.ReflTransGen.refl
  rw [← h.node] at hnode
  cases step_writes hnode with
  | fails _ hstep => exact absurd hstep (hself _)
  | @closes selector hclosed hfragment hstep =>
      -- An id of its own makes the path unique whatever the levels below are.
      rw [h.node] at hclosed
      rw [h.node, h.featureCount] at hfragment
      have hunique : UniqueBy t n options i := (uniqueBy_iff t n options i).mpr
        (Or.inr (Or.inl hclosed))
      exact ⟨selector, true, false,
        { step := hstep
          writes := Writes.plain hfragment fun hmark => hmark.2.1 hclosed
          isUnique_iff := by simp [hunique]
          ends_iff := by simp [hclosed] }⟩
  | @describes fragment isUnique hopen hfragment hunique hstep =>
      rw [h.node] at hopen
      rw [h.node, h.featureCount] at hfragment
      -- What the state knows is about the levels below; this fragment adds its own.
      have hby : isUnique = true ↔ UniqueBy t n options i := by
        rw [uniqueBy_iff, ← h.isUnique, Distinct.iff_length hfragment, hunique, Bool.or_eq_true,
          beq_iff_eq]
      refine ⟨_, isUnique, _, hstep, ?_, hby, ?_⟩
      · rw [h.node]
        exact writes_topMark hopen hfragment hby
      · rw [← h.depth_eq_zero_iff, ← hby, Bool.or_eq_false_iff, Bool.not_eq_false']
        simp [hopen]

theorem At.above (h : At t n options i a) {text : String} {isUnique goesOn : Bool}
    (hadvances : Advances t n options i a text isUnique goesOn) :
    At t n options (i + 1) (a.above (n (i + 1)) text isUnique) where
  node := rfl
  depth := by
    have hdepth := h.depth
    rw [Ascent.above, toInt_oneLess]
    omega
  isUnique := by
    rw [Ascent.above, hadvances.isUnique_iff, UniqueBy]
    simp only [Nat.lt_succ_iff]
  featureCount := rfl
  toRoot := h.toRoot
  below := by
    rw [Ascent.above, List.range_succ, List.reverse_append]
    exact List.Forall₂.cons hadvances.writes h.below

variable {r : Nat}

/-- Below the top the climb may end where the level says so, unless it is to go to the root. -/
theorem Advances.stops_iff {text : String} {isUnique goesOn : Bool}
    (h : Advances t n options i a text isUnique goesOn) (hi : i < r) :
    Stops t n options r i ↔ (options.toRoot || goesOn) = false := by
  have hne : i ≠ r := Nat.ne_of_lt hi
  rw [Stops, Bool.or_eq_false_iff, h.ends_iff]
  cases options.toRoot with
  | true => simp [hne]
  | false => simp [hne]

/-- The step lemma: the climb ends at the first level where it may, and else goes on to the
    next. -/
theorem At.step (h : At t n options i a) (hline : t.Line n r) (hi : i ≤ r) (hsmooth : Smooth t a) :
    ∃ text, Writes t n options i text ∧
      ((Stops t n options r i ∧
          Answers (a.step (Host.ofTree t) t) (.ok (.done (joinLevels (text :: a.below))))) ∨
        (¬ Stops t n options r i ∧ t.parentElement? a.node = some (n (i + 1)) ∧
          ∃ isUnique, Climbs t a (a.above (n (i + 1)) text isUnique) ∧
            At t n options (i + 1) (a.above (n (i + 1)) text isUnique))) := by
  obtain ⟨text, isUnique, goesOn, hadvances⟩ := h.advances (hline.isElement_at hi) hsmooth
  have hstep := hadvances.step
  refine ⟨text, hadvances.writes, ?_⟩
  -- Below the top the closed form decides, at the top there is no parent to go on at.
  rcases Nat.lt_or_eq_of_le hi with hlt | rfl
  · have hparent := hline.parent i hlt
    rw [← h.node] at hparent
    rw [Ascent.advance, hparent, h.toRoot] at hstep
    dsimp only at hstep
    by_cases hstops : Stops t n options r i
    · rw [(hadvances.stops_iff hlt).mp hstops] at hstep
      exact Or.inl ⟨hstops, hstep⟩
    · have hgoesOn := hstops
      rw [hadvances.stops_iff hlt, Bool.not_eq_false] at hgoesOn
      rw [if_pos hgoesOn, ← h.toRoot] at hstep
      exact Or.inr ⟨hstops, hparent, isUnique, hstep, h.above hadvances⟩
  · have htop := hline.top
    rw [← h.node] at htop
    rw [Ascent.advance, htop] at hstep
    exact Or.inl ⟨stops_top t n options i, hstep⟩

end Step

/-! ## The run -/

theorem reaches_iff_of_climbs {t : Tree} {a b c : Ascent} (h : Climbs t a b) :
    Reaches t a c ↔ c = a ∨ Reaches t b c := by
  constructor
  · intro hreaches
    rcases Relation.ReflTransGen.cases_head hreaches with rfl | ⟨b', hclimbs, hrest⟩
    · exact Or.inl rfl
    · -- A step has one answer.
      cases Except.ok.inj (h.unique {} hclimbs)
      exact Or.inr hrest
  · rintro (rfl | hrest)
    · exact Relation.ReflTransGen.refl
    · exact Relation.ReflTransGen.head h hrest

theorem reaches_iff_of_done {t : Tree} {a c : Ascent} {selector : String}
    (h : Answers (a.step (Host.ofTree t) t) (.ok (.done selector))) : Reaches t a c ↔ c = a := by
  constructor
  · intro hreaches
    rcases Relation.ReflTransGen.cases_head hreaches with rfl | ⟨b, hclimbs, -⟩
    · rfl
    · cases Except.ok.inj (h.unique {} hclimbs)
  · rintro rfl
    exact Relation.ReflTransGen.refl

/-- The climb from level `i` on, in closed form: `e` is the level it ends at. -/
structure Closed (t : Tree) (n : Nat → NodeId) (options : Options) (r i bound : Nat) (a : Ascent)
    (e : Nat) (fragments : List String) : Prop where
  ends : IsLeast {j | Stops t n options r j} e
  visits : ∀ x, (∃ b, Reaches t a b ∧ b.node = x) ↔ ∃ j, i ≤ j ∧ j ≤ e ∧ x = n j
  writes : List.Forall₂ (Writes t n options) (List.range (e + 1)).reverse fragments
  answers : Answers (climb (Host.ofTree t) t bound a) (.ok (joinLevels fragments))

section Run

variable {t : Tree} {n : Nat → NodeId} {options : Options} {r i bound : Nat} {a : Ascent}

theorem At.closed_of_stops (h : At t n options i a) {text : String}
    (hwrites : Writes t n options i text) (hstops : Stops t n options r i)
    (hbefore : ∀ j < i, ¬ Stops t n options r j)
    (hstep : Answers (a.step (Host.ofTree t) t) (.ok (.done (joinLevels (text :: a.below))))) :
    Closed t n options r i (bound + 1) a i (text :: a.below) where
  ends := by
    refine ⟨hstops, fun j hj => ?_⟩
    by_contra hlt
    exact hbefore j (Nat.lt_of_not_le hlt) hj
  visits := by
    intro x
    simp only [reaches_iff_of_done hstep, exists_eq_left, h.node]
    constructor
    · rintro rfl
      exact ⟨i, Nat.le_refl i, Nat.le_refl i, rfl⟩
    · rintro ⟨j, hij, hji, rfl⟩
      rw [Nat.le_antisymm hij hji]
  writes := by
    rw [List.range_succ, List.reverse_append]
    exact List.Forall₂.cons hwrites h.below
  answers := answers_climb_done hstep

theorem At.closed_of_climbs (h : At t n options i a) {b : Ascent} (hclimbs : Climbs t a b) {e : Nat}
    {fragments : List String} (hi : i < e)
    (hrest : Closed t n options r (i + 1) bound b e fragments) :
    Closed t n options r i (bound + 1) a e fragments where
  ends := hrest.ends
  visits := by
    intro x
    have hstep : (∃ c, Reaches t a c ∧ c.node = x) ↔ n i = x ∨ ∃ c, Reaches t b c ∧ c.node = x := by
      simp only [reaches_iff_of_climbs hclimbs, or_and_right, exists_or, exists_eq_left, h.node]
    rw [hstep, hrest.visits]
    constructor
    · rintro (rfl | ⟨j, hij, hje, rfl⟩)
      · exact ⟨i, Nat.le_refl i, Nat.le_of_lt hi, rfl⟩
      · exact ⟨j, Nat.le_of_succ_le hij, hje, rfl⟩
    · rintro ⟨j, hij, hje, rfl⟩
      rcases Nat.lt_or_eq_of_le hij with hlt | rfl
      · exact Or.inr ⟨j, hlt, hje, rfl⟩
      · exact Or.inl rfl
  writes := hrest.writes
  answers := answers_climb_climb hclimbs hrest.answers

/-- The run lemma. -/
theorem climb_closed (ht : t.Linked) (hline : t.Line n r)
    (hbound : (t.ancestors a.node).length < bound) (ha : At t n options i a) (hi : i ≤ r)
    (hbefore : ∀ j < i, ¬ Stops t n options r j) (hsmooth : Smooth t a) :
    ∃ e fragments, Closed t n options r i bound a e fragments := by
  induction bound generalizing i a with
  | zero => cases hbound
  | succ bound ih =>
      obtain ⟨text, hwrites, ⟨hstops, hstep⟩ | ⟨hstops, hparent, isUnique, hclimbs, habove⟩⟩ :=
        ha.step hline hi hsmooth
      · exact ⟨i, text :: a.below, ha.closed_of_stops hwrites hstops hbefore hstep⟩
      · -- The top is a level to stop at, so there is one more level.
        have hlt : i < r := by
          refine Nat.lt_of_le_of_ne hi ?_
          rintro rfl
          exact hstops (stops_top t n options i)
        have hbefore' : ∀ j < i + 1, ¬ Stops t n options r j := by
          intro j hj
          rcases Nat.lt_or_eq_of_le (Nat.le_of_lt_succ hj) with hj | rfl
          · exact hbefore j hj
          · exact hstops
        obtain ⟨e, fragments, hclosed⟩ := ih (length_ancestors_above ht hparent hbound) habove hlt
          hbefore' fun b hb => hsmooth b (Relation.ReflTransGen.head hclimbs hb)
        refine ⟨e, fragments, ha.closed_of_climbs hclimbs ?_ hclosed⟩
        -- The level it ends at is none of those passed.
        by_contra hle
        exact hbefore' e (Nat.lt_succ_of_le (Nat.le_of_not_lt hle)) hclosed.ends.1

end Run

/-- Where the search gives a text no step failed. -/
theorem smooth_of_ok {t : Tree} (ht : t.Linked) {node : NodeId} (hnode : t.isElement node = true)
    {options : Options} {log : WarningLog} {selector : String}
    (h : ((synthesizeIn t (some node) options).run log).1 = .ok selector) :
    Smooth t (Ascent.start node options) := by
  intro b hreaches cause hstep
  have hanswer := climb_error_of_reaches ht hreaches hstep (length_ancestors_lt_size ht hnode) hnode
  rw [synthesizeIn, synthesize_eq _ hnode, hanswer log] at h
  cases h

/-- The search, in closed form: it ends at the first level where it may, comes by the levels up to
    that one and by nothing else, and joins what they write. -/
theorem synthesizeIn_closed {mayHold : Tree → NodeId → Prop} {t : Tree}
    (ht : Tree.Grown mayHold t) {n : Nat → NodeId} {r : Nat} (hline : t.Line n r)
    (options : Options) (log : WarningLog) (hsmooth : Smooth t (Ascent.start (n 0) options)) :
    ∃ e fragments, IsLeast {i | Stops t n options r i} e ∧
      (∀ x, (∃ a, Reaches t (Ascent.start (n 0) options) a ∧ a.node = x) ↔ ∃ i ≤ e, x = n i) ∧
      List.Forall₂ (Writes t n options) (List.range (e + 1)).reverse fragments ∧
      ((synthesizeIn t (some (n 0)) options).run log).1 = .ok (joinLevels fragments) := by
  have hlinked := ht.linked
  obtain ⟨e, fragments, hclosed⟩ := climb_closed hlinked hline
    (length_ancestors_lt_size hlinked hline.isElement) (at_start t n options) (Nat.zero_le r)
    (by simp) hsmooth
  refine ⟨e, fragments, hclosed.ends, ?_, hclosed.writes, ?_⟩
  · intro x
    simpa using hclosed.visits x
  · rw [synthesizeIn, synthesize_eq _ hline.isElement]
    exact hclosed.answers log

theorem synthesizeIn_closed_past_depth :
    let t := Tree.ofSketch .html (.element { tag := "ul" }
      [.element { tag := "li" } [.element { tag := "b" } []],
        .element { tag := "li" } [.element { tag := "b" } []]])
    let n := fun i => [5, 4, 1].getD i 1
    let options : Options := { minDepth := 0 }
    Tree.Grown Tree.MayHold t ∧ t.Line n 2 ∧ Smooth t (Ascent.start (n 0) options) ∧
      ((synthesizeIn t (some 5) options).run {}).1 = .ok "ul > li:nth-child(2) > b" ∧
      ∃ e fragments, IsLeast {i | Stops t n options 2 i} e ∧
        (∀ x, (∃ a, Reaches t (Ascent.start (n 0) options) a ∧ a.node = x) ↔ ∃ i ≤ e, x = n i) ∧
        List.Forall₂ (Writes t n options) (List.range (e + 1)).reverse fragments ∧
        ((synthesizeIn t (some (n 0)) options).run {}).1 = .ok (joinLevels fragments) := by
  intro t n options
  have hgrown : Tree.Grown Tree.MayHold t := (Tree.isDocument_ofSketch .html rfl).whole.grown
  have hline : t.Line n 2 := ⟨rfl, by decide, rfl⟩
  have hanswer : ((synthesizeIn t (some 5) options).run {}).1 =
      .ok "ul > li:nth-child(2) > b" := by
    decide +kernel
  have hsmooth : Smooth t (Ascent.start (n 0) options) := smooth_of_ok hgrown.linked rfl hanswer
  exact ⟨hgrown, hline, hsmooth, hanswer, synthesizeIn_closed hgrown hline options {} hsmooth⟩

end Synthesis

end UniqueSelector
