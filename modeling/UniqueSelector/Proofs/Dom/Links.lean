/-
  UniqueSelector.Proofs.Dom.Links

  What the links of a document are like, whatever calls built it. A call that
  appends a node is fit if the node has no parent yet, is not the document and
  does not end up below itself; calls that name no node change nothing.

    * `Tree.Grown` — the trees that fit calls build.
    * `Tree.Linked` — the invariant: children and parents agree, no child stands
      twice in a list, and every way up ends.
    * `Tree.Grown.linked` — the run lemma; the step lemma of the one call that
      links nodes is `Tree.Linked.append`.
    * `Tree.FitsMemory` — fewer nodes than a signed word can count.

  The way up from a node is the list `l` with `t.Lineage id l`. It never meets a
  node twice, so the number of nodes bounds its length, and `ancestors`, which
  takes that many steps, sees all of it.
-/

import UniqueSelector.Dom.Walk
import Mathlib.Algebra.Group.Nat.Defs
import Mathlib.Data.List.Nodup
import Mathlib.Data.Fintype.Card

namespace UniqueSelector.Tree

/-! ## What the calls do to the links -/

theorem children_eq (t : Tree) (id : NodeId) :
    t.children id = ((t.node? id).map Node.children).getD [] := by
  rw [children]
  cases t.node? id <;> rfl

theorem exists_node? {t : Tree} {id : NodeId} (h : id < t.size) : ∃ n, t.node? id = some n := by
  cases hn : t.node? id with
  | none => exact absurd h (Nat.not_lt.mpr ((node?_eq_none_iff t id).mp hn))
  | some n => exact ⟨n, rfl⟩

theorem node?_size (t : Tree) : t.node? t.size = none :=
  (node?_eq_none_iff t t.size).mpr (Nat.le_refl _)

theorem lt_size_of_kind? {t : Tree} {id : NodeId} {kind : NodeKind}
    (h : t.kind? id = some kind) : id < t.size := by
  by_contra hid
  rw [kind?, (node?_eq_none_iff t id).mpr (Nat.not_lt.mp hid)] at h
  cases h

theorem lt_size_of_isElement {t : Tree} {id : NodeId} (h : t.isElement id = true) :
    id < t.size := by
  rw [isElement, element?] at h
  cases hkind : t.kind? id with
  | none =>
      rw [hkind] at h
      cases h
  | some kind => exact lt_size_of_kind? hkind

theorem kind?_push (t : Tree) (kind : NodeKind) (id : NodeId) :
    (t.push kind).kind? id = if id = t.size then some kind else t.kind? id := by
  rw [kind?, node?_push]
  split <;> rfl

theorem parent?_push (t : Tree) (kind : NodeKind) (id : NodeId) :
    (t.push kind).parent? id = t.parent? id := by
  rw [parent?, parent?, node?_push]
  by_cases hid : id = t.size
  · rw [if_pos hid, hid, node?_size]
    rfl
  · rw [if_neg hid]

theorem children_push (t : Tree) (kind : NodeKind) (id : NodeId) :
    (t.push kind).children id = t.children id := by
  rw [children_eq, children_eq, node?_push]
  by_cases hid : id = t.size
  · rw [if_pos hid, hid, node?_size]
    rfl
  · rw [if_neg hid]

/-- What a change of nodes leaves alone in every node it leaves alone in the tree. -/
theorem map_node?_update {α : Type} (t : Tree) {f : Node → Node} {g : Node → α}
    (hf : ∀ n, g (f n) = g n) (id other : NodeId) :
    ((t.update id f).node? other).map g = (t.node? other).map g := by
  rw [node?_update]
  split
  · rw [Option.map_map]
    exact congrFun (congrArg Option.map (funext hf)) _
  · rfl

theorem kind?_update (t : Tree) {f : Node → Node} (hf : ∀ n, (f n).kind = n.kind)
    (id other : NodeId) : (t.update id f).kind? other = t.kind? other :=
  map_node?_update t hf id other

theorem parent?_eq (t : Tree) (id : NodeId) :
    t.parent? id = ((t.node? id).map Node.parent).getD none := by
  rw [parent?]
  cases t.node? id <;> rfl

theorem parent?_update (t : Tree) {f : Node → Node} (hf : ∀ n, (f n).parent = n.parent)
    (id other : NodeId) : (t.update id f).parent? other = t.parent? other := by
  rw [parent?_eq, parent?_eq, map_node?_update t hf]

theorem children_update (t : Tree) {f : Node → Node} (hf : ∀ n, (f n).children = n.children)
    (id other : NodeId) : (t.update id f).children other = t.children other := by
  rw [children_eq, children_eq, map_node?_update t hf]

/-- A call that names no node changes nothing. -/
theorem append_of_not_lt (t : Tree) {parent child : NodeId}
    (h : ¬ (parent < t.size ∧ child < t.size)) : t.append parent child = t := by
  rw [append, if_neg h]

theorem kind?_append (t : Tree) (parent child id : NodeId) :
    (t.append parent child).kind? id = t.kind? id := by
  by_cases h : parent < t.size ∧ child < t.size
  · rw [append, if_pos h]
    dsimp only
    split <;> simp [kind?_update]
  · rw [append_of_not_lt t h]

theorem parent?_append (t : Tree) {parent child : NodeId}
    (h : parent < t.size ∧ child < t.size) (id : NodeId) :
    (t.append parent child).parent? id = if id = child then some parent else t.parent? id := by
  have hlinked : ((t.update parent fun n => { n with children := n.children ++ [child] }).update
      child fun n => { n with parent := some parent }).parent? id =
        if id = child then some parent else t.parent? id := by
    by_cases hid : id = child
    · rw [← size_update t parent fun n => { n with children := n.children ++ [child] }] at h
      obtain ⟨n, hn⟩ := exists_node? h.2
      rw [parent?, node?_update, hid, if_pos rfl, if_pos rfl, hn]
      rfl
    · rw [parent?, node?_update, if_neg hid, if_neg hid]
      exact parent?_update t (by intro n; rfl) parent id
  rw [append, if_pos h]
  dsimp only
  split
  · exact hlinked
  · rw [parent?_update _ (by intro n; rfl), parent?_update _ (by intro n; rfl)]
    exact hlinked

theorem children_append (t : Tree) {parent child : NodeId}
    (h : parent < t.size ∧ child < t.size) (id : NodeId) :
    (t.append parent child).children id =
      if id = parent then t.children id ++ [child] else t.children id := by
  have hlinked : (t.update parent fun n => { n with children := n.children ++ [child] }).children id
      = if id = parent then t.children id ++ [child] else t.children id := by
    by_cases hid : id = parent
    · obtain ⟨n, hn⟩ := exists_node? h.1
      rw [children_eq, children_eq, node?_update, hid, if_pos rfl, if_pos rfl, hn]
      rfl
    · rw [children_eq, children_eq, node?_update, if_neg hid, if_neg hid]
  rw [append, if_pos h]
  dsimp only
  split
  · rw [children_update _ (by intro n; rfl)]
    exact hlinked
  · rw [children_update _ (by intro n; rfl), children_update _ (by intro n; rfl),
      children_update _ (by intro n; rfl)]
    exact hlinked

theorem element?_congr {t t' : Tree} {id : NodeId} (h : t'.kind? id = t.kind? id) :
    t'.element? id = t.element? id := by
  rw [element?, element?, h]

theorem isElement_congr {t t' : Tree} {id : NodeId} (h : t'.kind? id = t.kind? id) :
    t'.isElement id = t.isElement id := by
  rw [isElement, isElement, element?_congr h]

theorem kind?_updateAttributes (t : Tree) {f : Attributes → Attributes} (id other : NodeId)
    (h : t.isElement other = false) : (t.updateAttributes id f).kind? other = t.kind? other := by
  rw [isElement, element?, kind?] at h
  rw [kind?, kind?, updateAttributes, node?_update]
  cases hn : t.node? other with
  | none => simp
  | some n =>
      cases hkind : n.kind with
      | element e => simp [hn, hkind] at h
      | document => simp [hkind]
      | text s => simp [hkind]
      | comment s => simp [hkind]

theorem element?_updateAttributes (t : Tree) (f : Attributes → Attributes) (id other : NodeId) :
    (t.updateAttributes id f).element? other =
      if other = id then (t.element? other).map fun e => { e with attributes := f e.attributes }
      else t.element? other := by
  rw [element?, element?, kind?, kind?, updateAttributes, node?_update]
  by_cases hid : other = id
  · rw [if_pos hid, if_pos hid]
    cases t.node? other with
    | none => rfl
    | some n => cases hkind : n.kind <;> simp [hkind]
  · rw [if_neg hid, if_neg hid]

theorem isElement_updateAttributes (t : Tree) (f : Attributes → Attributes) (id other : NodeId) :
    (t.updateAttributes id f).isElement other = t.isElement other := by
  rw [isElement, isElement, element?_updateAttributes]
  split
  · rw [Option.isSome_map]
  · rfl

/-! ## The way up -/

/-- The parent, its parent and so on, up to a node without a parent. -/
inductive Lineage (t : Tree) : NodeId → List NodeId → Prop
  | top {id : NodeId} (h : t.parent? id = none) : Lineage t id []
  | step {id parent : NodeId} {l : List NodeId} (h : t.parent? id = some parent)
      (hl : Lineage t parent l) : Lineage t id (parent :: l)

namespace Lineage

variable {t : Tree} {id : NodeId} {l : List NodeId}

theorem unique (h : t.Lineage id l) {l' : List NodeId} (h' : t.Lineage id l') : l = l' := by
  induction h generalizing l' with
  | top hnone =>
      cases h' with
      | top => rfl
      | step hsome => rw [hnone] at hsome; cases hsome
  | step hsome hl ih =>
      cases h' with
      | top hnone => rw [hnone] at hsome; cases hsome
      | step hsome' hl' =>
          rw [hsome] at hsome'
          cases hsome'
          rw [ih hl']

/-- The way up from a node on the way is the rest of the way. -/
theorem suffix (h : t.Lineage id l) {x : NodeId} (hx : x ∈ id :: l) :
    ∃ l', t.Lineage x l' ∧ (x :: l') <:+ (id :: l) := by
  induction h with
  | top hnone =>
      obtain rfl := List.mem_singleton.mp hx
      exact ⟨[], Lineage.top hnone, List.suffix_refl _⟩
  | @step id parent l hsome hl ih =>
      rcases List.mem_cons.mp hx with rfl | hx
      · exact ⟨parent :: l, Lineage.step hsome hl, List.suffix_refl _⟩
      · obtain ⟨l', hl', hsuffix⟩ := ih hx
        exact ⟨l', hl', hsuffix.trans (List.suffix_cons id _)⟩

theorem nodup (h : t.Lineage id l) : (id :: l).Nodup := by
  induction h with
  | top => exact List.nodup_singleton _
  | @step id parent l hsome hl ih =>
      refine List.nodup_cons.mpr ⟨fun hmem => ?_, ih⟩
      -- A node on its own way up would have a way shorter than itself.
      obtain ⟨l', hl', hsuffix⟩ := hl.suffix hmem
      obtain rfl := hl'.unique (Lineage.step hsome hl)
      have hlength := hsuffix.length_le
      rw [List.length_cons] at hlength
      omega

theorem chase_eq (h : t.Lineage id l) {bound : Nat} (hbound : l.length ≤ bound) :
    chase t.parent? bound id = l := by
  induction h generalizing bound with
  | top hnone =>
      cases bound with
      | zero => rfl
      | succ bound => rw [chase, hnone]
  | step hsome hl ih =>
      cases bound with
      | zero => exact absurd hbound (by simp)
      | succ bound =>
          rw [List.length_cons] at hbound
          rw [chase, hsome]
          dsimp only
          rw [ih (by omega)]

end Lineage

/-! ## The invariant -/

/-- The document node is where it is, children and parents agree, and every way up ends. -/
structure Linked (t : Tree) : Prop where
  kind_root : t.kind? root = some .document
  parent_root : t.parent? root = none
  mem_children_iff : ∀ id child, child ∈ t.children id ↔ t.parent? child = some id
  nodup_children : ∀ id, (t.children id).Nodup
  lineage : ∀ id, ∃ l, t.Lineage id l

namespace Linked

variable {t : Tree} (ht : t.Linked)

include ht

theorem isElement_root : t.isElement root = false := by
  rw [isElement, element?, ht.kind_root]
  rfl

theorem ne_root_of_isElement {id : NodeId} (h : t.isElement id = true) : id ≠ root := by
  rintro rfl
  rw [ht.isElement_root] at h
  cases h

/-- The document node is no child. -/
theorem ne_root_of_mem_children {id child : NodeId} (h : child ∈ t.children id) : child ≠ root := by
  rintro rfl
  have hparent := (ht.mem_children_iff id root).mp h
  rw [ht.parent_root] at hparent
  cases hparent

theorem lt_of_parent? {id parent : NodeId} (h : t.parent? id = some parent) :
    id < t.size ∧ parent < t.size := by
  constructor
  · by_contra hid
    rw [parent?, (node?_eq_none_iff t id).mpr (Nat.not_lt.mp hid)] at h
    cases h
  · -- A node that is not there has no children.
    have hmem := (ht.mem_children_iff parent id).mpr h
    by_contra hparent
    rw [children, (node?_eq_none_iff t parent).mpr (Nat.not_lt.mp hparent)] at hmem
    cases hmem

theorem lineage_lt {id : NodeId} {l : List NodeId} (h : t.Lineage id l) : ∀ x ∈ l, x < t.size := by
  induction h with
  | top => simp
  | step hsome hl ih =>
      intro x hx
      rcases List.mem_cons.mp hx with rfl | hx
      · exact (ht.lt_of_parent? hsome).2
      · exact ih x hx

/-- Nodes on the way up are distinct, so there are no more of them than nodes. -/
theorem lineage_length_lt {id : NodeId} {l : List NodeId} (h : t.Lineage id l) (hid : id < t.size) :
    l.length < t.size := by
  have hsubset : id :: l ⊆ List.range t.size := by
    intro x hx
    rw [List.mem_range]
    rcases List.mem_cons.mp hx with rfl | hx
    · exact hid
    · exact ht.lineage_lt h x hx
  have hlength := (List.subperm_of_subset h.nodup hsubset).length_le
  rw [List.length_cons, List.length_range] at hlength
  omega

theorem not_mem_children_of_free {child : NodeId} (h : t.parent? child = none) (id : NodeId) :
    child ∉ t.children id := by
  intro hmem
  rw [ht.mem_children_iff, h] at hmem
  cases hmem

theorem length_children_le (id : NodeId) : (t.children id).length ≤ t.size := by
  have hsubset : t.children id ⊆ List.range t.size := by
    intro x hx
    rw [List.mem_range]
    exact (ht.lt_of_parent? ((ht.mem_children_iff id x).mp hx)).1
  have hlength := (List.subperm_of_subset (ht.nodup_children id) hsubset).length_le
  rw [List.length_range] at hlength
  exact hlength

theorem length_elementChildren_le (id : NodeId) : (t.elementChildren id).length ≤ t.size :=
  Nat.le_trans (List.length_filter_le _ _) (ht.length_children_le id)

theorem ancestors_eq {id : NodeId} {l : List NodeId} (h : t.Lineage id l) :
    t.ancestors id = l := by
  refine h.chase_eq ?_
  cases h with
  | top => simp
  | step hsome hl =>
      exact Nat.le_of_lt (ht.lineage_length_lt (.step hsome hl) (ht.lt_of_parent? hsome).1)

theorem lineage_ancestors (id : NodeId) : t.Lineage id (t.ancestors id) := by
  obtain ⟨l, hl⟩ := ht.lineage id
  rw [ht.ancestors_eq hl]
  exact hl

theorem ancestors_of_parent? {id parent : NodeId} (h : t.parent? id = some parent) :
    t.ancestors id = parent :: t.ancestors parent :=
  ht.ancestors_eq (Lineage.step h (ht.lineage_ancestors parent))

theorem ancestors_of_top {id : NodeId} (h : t.parent? id = none) : t.ancestors id = [] :=
  ht.ancestors_eq (Lineage.top h)

end Linked

/-! ## Fit calls keep it -/

/-- The call that appends `child` to `parent` links a free node, and not below itself. -/
structure MayAppend (t : Tree) (parent child : NodeId) : Prop where
  free : t.parent? child = none
  ne_root : child ≠ root
  ne_parent : child ≠ parent
  not_above : child ∉ t.ancestors parent

theorem Lineage.append_of_not_mem {t : Tree} {parent child : NodeId}
    (hlt : parent < t.size ∧ child < t.size) {id : NodeId} {l : List NodeId} (h : t.Lineage id l)
    (hchild : child ∉ id :: l) : (t.append parent child).Lineage id l := by
  induction h with
  | top hnone =>
      refine Lineage.top ?_
      rw [parent?_append t hlt, if_neg (by rintro rfl; simp at hchild)]
      exact hnone
  | step hsome hl ih =>
      refine Lineage.step ?_ (ih fun hmem => hchild (List.mem_cons_of_mem _ hmem))
      rw [parent?_append t hlt, if_neg (by rintro rfl; simp at hchild)]
      exact hsome

/-- A way up goes on where it was, or goes up to the child and on from its new parent. -/
theorem Linked.lineage_append {t : Tree} (ht : t.Linked) {parent child : NodeId}
    (hlt : parent < t.size ∧ child < t.size) (hfit : t.MayAppend parent child) {id : NodeId}
    {l : List NodeId} (h : t.Lineage id l) : ∃ l', (t.append parent child).Lineage id l' := by
  induction h with
  | @top id hnone =>
      by_cases hid : id = child
      · -- The way from the new parent misses the child, so it is the way it was before.
        have hnot : child ∉ parent :: t.ancestors parent := by
          intro hmem
          rcases List.mem_cons.mp hmem with heq | habove
          · exact hfit.ne_parent heq
          · exact hfit.not_above habove
        refine ⟨_, Lineage.step ?_ ((ht.lineage_ancestors parent).append_of_not_mem hlt hnot)⟩
        rw [parent?_append t hlt, if_pos hid]
      · refine ⟨[], Lineage.top ?_⟩
        rw [parent?_append t hlt, if_neg hid]
        exact hnone
  | @step id above l hsome hl ih =>
      obtain ⟨l', hl'⟩ := ih
      -- The child had no parent before, so this step of the way is the one it was.
      have hid : id ≠ child := by
        rintro rfl
        rw [hfit.free] at hsome
        cases hsome
      refine ⟨above :: l', Lineage.step ?_ hl'⟩
      rw [parent?_append t hlt, if_neg hid]
      exact hsome

theorem Linked.append {t : Tree} (ht : t.Linked) {parent child : NodeId}
    (hlt : parent < t.size ∧ child < t.size) (hfit : t.MayAppend parent child) :
    (t.append parent child).Linked where
  kind_root := by
    rw [kind?_append]
    exact ht.kind_root
  parent_root := by
    rw [parent?_append t hlt, if_neg (Ne.symm hfit.ne_root)]
    exact ht.parent_root
  mem_children_iff := by
    intro id x
    have hfree := ht.not_mem_children_of_free hfit.free
    rw [children_append t hlt, parent?_append t hlt]
    by_cases hx : x = child
    · rw [hx, if_pos rfl]
      split
      · rename_i hid
        simp [hid]
      · rename_i hid
        simp [hfree id, Ne.symm hid]
    · rw [if_neg hx, ← ht.mem_children_iff]
      split
      · simp [hx]
      · rfl
  nodup_children := by
    intro id
    rw [children_append t hlt]
    split
    · refine List.Nodup.append (ht.nodup_children id) (List.nodup_singleton _) ?_
      rw [List.disjoint_singleton]
      exact ht.not_mem_children_of_free hfit.free id
    · exact ht.nodup_children id
  lineage := by
    intro id
    obtain ⟨l, hl⟩ := ht.lineage id
    exact ht.lineage_append hlt hfit hl

theorem Lineage.congr {t t' : Tree} (hparent : ∀ id, t'.parent? id = t.parent? id) {id : NodeId}
    {l : List NodeId} (h : t.Lineage id l) : t'.Lineage id l := by
  induction h with
  | top hnone => exact Lineage.top (by rw [hparent]; exact hnone)
  | step hsome hl ih => exact Lineage.step (by rw [hparent]; exact hsome) ih

/-- A call that leaves the links alone, and the document node, keeps the invariant. -/
theorem Linked.congr {t t' : Tree} (ht : t.Linked) (hroot : t'.kind? root = t.kind? root)
    (hparent : ∀ id, t'.parent? id = t.parent? id)
    (hchildren : ∀ id, t'.children id = t.children id) : t'.Linked where
  kind_root := by rw [hroot]; exact ht.kind_root
  parent_root := by rw [hparent]; exact ht.parent_root
  mem_children_iff := by
    intro id child
    rw [hchildren, hparent]
    exact ht.mem_children_iff id child
  nodup_children := by
    intro id
    rw [hchildren]
    exact ht.nodup_children id
  lineage := by
    intro id
    obtain ⟨l, hl⟩ := ht.lineage id
    exact ⟨l, hl.congr hparent⟩

theorem Linked.push {t : Tree} (ht : t.Linked) (kind : NodeKind) : (t.push kind).Linked := by
  refine ht.congr ?_ (parent?_push t kind) (children_push t kind)
  rw [kind?_push, if_neg (Nat.ne_of_lt (lt_size_of_kind? ht.kind_root))]

theorem Linked.updateAttributes {t : Tree} (ht : t.Linked) (id : NodeId)
    (f : Attributes → Attributes) : (t.updateAttributes id f).Linked :=
  ht.congr (kind?_updateAttributes t id root ht.isElement_root)
    (fun other => (links_updateAttributes t id other f).1)
    (fun other => (links_updateAttributes t id other f).2.1)

theorem linked_empty (markup : Markup) : (empty markup).Linked where
  kind_root := rfl
  parent_root := rfl
  mem_children_iff := by
    intro id child
    cases id <;> cases child <;> simp [children, parent?, node?, empty]
  nodup_children := by
    intro id
    cases id <;> simp [children, node?, empty]
  lineage := by
    intro id
    refine ⟨[], Lineage.top ?_⟩
    cases id <;> rfl

/-! ## New nodes -/

/-- The nodes of a tree stand in one array, and no array is longer than a signed word can say. -/
def FitsMemory (t : Tree) : Prop :=
  t.size < 2 ^ 63

theorem Linked.size_pos {t : Tree} (ht : t.Linked) : root < t.size :=
  lt_size_of_kind? ht.kind_root

theorem Linked.length_ancestors_lt {t : Tree} (ht : t.Linked) (id : NodeId) :
    (t.ancestors id).length < t.size := by
  cases hparent : t.parent? id with
  | none =>
      rw [ht.ancestors_of_top hparent]
      exact ht.size_pos
  | some parent => exact ht.lineage_length_lt (ht.lineage_ancestors id) (ht.lt_of_parent? hparent).1

theorem parent?_size (t : Tree) : t.parent? t.size = none := by
  rw [parent?, node?_size]
  rfl

theorem children_size (t : Tree) : t.children t.size = [] := by
  rw [children, node?_size]

theorem mayAppend_push {t : Tree} (ht : t.Linked) {parent : NodeId} (hparent : parent < t.size)
    (kind : NodeKind) : (t.push kind).MayAppend parent t.size where
  free := by
    rw [parent?_push]
    exact parent?_size t
  ne_root := Nat.ne_of_gt ht.size_pos
  ne_parent := Nat.ne_of_gt hparent
  not_above := by
    have hlineage := (ht.lineage_ancestors parent).congr (parent?_push t kind)
    rw [(ht.push kind).ancestors_eq hlineage]
    intro hmem
    exact Nat.lt_irrefl _ (ht.lineage_lt (ht.lineage_ancestors parent) _ hmem)

/-! ## Grown trees -/

/-- The trees that fit calls build from an empty document, where `mayHold` says what may
    have children. -/
inductive Grown (mayHold : Tree → NodeId → Prop) : Tree → Prop
  | empty (markup : Markup) : Grown mayHold (Tree.empty markup)
  | push {t : Tree} (ht : Grown mayHold t) (kind : NodeKind) : Grown mayHold (t.push kind)
  | setAttribute {t : Tree} (ht : Grown mayHold t) (id : NodeId) (name value : String) :
      Grown mayHold (t.setAttribute id name value)
  | eraseAttribute {t : Tree} (ht : Grown mayHold t) (id : NodeId) (name : String) :
      Grown mayHold (t.eraseAttribute id name)
  | append {t : Tree} (ht : Grown mayHold t) {parent child : NodeId}
      (hfit : parent < t.size → child < t.size → t.MayAppend parent child)
      (hhold : parent < t.size → child < t.size → mayHold t parent) :
      Grown mayHold (t.append parent child)

theorem Grown.linked {mayHold : Tree → NodeId → Prop} {t : Tree} (h : Grown mayHold t) :
    t.Linked := by
  induction h with
  | empty markup => exact linked_empty markup
  | push ht kind ih => exact ih.push kind
  | setAttribute ht id name value ih => exact ih.updateAttributes id _
  | eraseAttribute ht id name ih => exact ih.updateAttributes id _
  | @append t ht parent child hfit hhold ih =>
      by_cases hlt : parent < t.size ∧ child < t.size
      · exact ih.append hlt (hfit hlt.1 hlt.2)
      · rw [append_of_not_lt t hlt]
        exact ih

end UniqueSelector.Tree
