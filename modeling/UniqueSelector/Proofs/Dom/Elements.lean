/-
  UniqueSelector.Proofs.Dom.Elements

  The elements of a document are the elements with the document node above them,
  each listed once.

    * `Tree.MayHold` — the document and its elements; where nothing else has
      content, the walk down through elements misses none.
    * `Tree.mem_elements_iff`, `Tree.nodup_elements` — the list of elements.

  A node found on the walk down from `id` has `id` on its way up
  (`mem_lineage_of_mem_elementsFrom`), and of two siblings only one can be there.
-/

import UniqueSelector.Proofs.Dom.Links

namespace UniqueSelector.Tree

/-! ## Ways up that share a node -/

namespace Linked

variable {t : Tree} (ht : t.Linked)

include ht

theorem suffix_lineage {x c : NodeId} (hc : c ∈ x :: t.ancestors x) :
    (c :: t.ancestors c) <:+ (x :: t.ancestors x) := by
  obtain ⟨l, hl, hsuffix⟩ := (ht.lineage_ancestors x).suffix hc
  rw [ht.ancestors_eq hl]
  exact hsuffix

theorem not_mem_ancestors_self (x : NodeId) : x ∉ t.ancestors x :=
  (List.nodup_cons.mp (ht.lineage_ancestors x).nodup).1

theorem parent_mem_ancestors {x c p : NodeId} (hc : c ∈ x :: t.ancestors x)
    (hp : t.parent? c = some p) : p ∈ t.ancestors x := by
  have hsuffix := ht.suffix_lineage hc
  rw [ht.ancestors_of_parent? hp] at hsuffix
  have htail : (p :: t.ancestors p) <:+ t.ancestors x := by
    rcases List.suffix_cons_iff.mp hsuffix with heq | hrest
    · rw [List.cons.injEq] at heq
      rw [heq.2]
    · exact (List.suffix_cons c _).trans hrest
  exact htail.subset List.mem_cons_self

/-- Of two children of one node only one lies on a way up: both have a way of one length. -/
theorem sibling_unique {x c c' p : NodeId} (hc : c ∈ x :: t.ancestors x)
    (hc' : c' ∈ x :: t.ancestors x) (hp : t.parent? c = some p) (hp' : t.parent? c' = some p) :
    c = c' := by
  have hlength : (c :: t.ancestors c).length = (c' :: t.ancestors c').length := by
    rw [ht.ancestors_of_parent? hp, ht.ancestors_of_parent? hp']
    rfl
  have hsuffix := List.suffix_of_suffix_length_le (ht.suffix_lineage hc) (ht.suffix_lineage hc')
    (Nat.le_of_eq hlength)
  exact (List.cons.inj (hsuffix.eq_of_length hlength)).1

end Linked

/-! ## What may have content -/

/-- The node is the document or an element. -/
def MayHold (t : Tree) (id : NodeId) : Prop :=
  id = root ∨ t.isElement id = true

/-- Only the document and elements have content. -/
def Nested (t : Tree) : Prop :=
  ∀ id parent, t.parent? id = some parent → t.MayHold parent

theorem Nested.congr {t t' : Tree} (h : t.Nested) (hparent : ∀ id, t'.parent? id = t.parent? id)
    (helement : ∀ id, t.isElement id = true → t'.isElement id = true) : t'.Nested := by
  intro id parent hsome
  rw [hparent] at hsome
  exact (h id parent hsome).imp_right (helement parent)

theorem isElement_push {t : Tree} {kind : NodeKind} {id : NodeId} (h : t.isElement id = true) :
    (t.push kind).isElement id = true := by
  rw [isElement_congr, h]
  rw [kind?_push, if_neg (Nat.ne_of_lt (lt_size_of_isElement h))]

theorem Nested.push {t : Tree} (h : t.Nested) (kind : NodeKind) : (t.push kind).Nested :=
  h.congr (parent?_push t kind) fun _ => isElement_push

theorem isElement_append (t : Tree) (parent child id : NodeId) :
    (t.append parent child).isElement id = t.isElement id :=
  isElement_congr (kind?_append t parent child id)

theorem Nested.append {t : Tree} (h : t.Nested) {parent child : NodeId}
    (hlt : parent < t.size ∧ child < t.size) (hhold : t.MayHold parent) :
    (t.append parent child).Nested := by
  intro id above hsome
  rw [parent?_append t hlt] at hsome
  rw [MayHold, isElement_append]
  split at hsome
  · cases hsome
    exact hhold
  · exact h id above hsome

theorem Nested.updateAttributes {t : Tree} (h : t.Nested) (id : NodeId)
    (f : Attributes → Attributes) : (t.updateAttributes id f).Nested := by
  refine h.congr (fun other => (links_updateAttributes t id other f).1) fun other helement => ?_
  rw [isElement_updateAttributes, helement]

theorem Grown.nested {t : Tree} (h : Grown MayHold t) : t.Nested := by
  induction h with
  | empty markup =>
      intro id parent hsome
      cases id <;> cases hsome
  | push ht kind ih => exact ih.push kind
  | setAttribute ht id name value ih => exact ih.updateAttributes id _
  | eraseAttribute ht id name ih => exact ih.updateAttributes id _
  | @append t ht parent child hfit hhold ih =>
      by_cases hlt : parent < t.size ∧ child < t.size
      · exact ih.append hlt (hhold hlt.1 hlt.2)
      · rw [append_of_not_lt t hlt]
        exact ih

/-! ## The walk down -/

theorem isElement_of_mem_elementsFrom {t : Tree} {levels : Nat} {id x : NodeId}
    (h : x ∈ t.elementsFrom levels id) : t.isElement x = true := by
  induction levels generalizing id with
  | zero => cases h
  | succ levels ih =>
      rw [elementsFrom] at h
      split at h
      · rename_i hid
        rcases List.mem_cons.mp h with rfl | hbelow
        · exact hid
        · obtain ⟨c, -, hx⟩ := List.mem_flatMap.mp hbelow
          exact ih hx
      · cases h

theorem mem_elementsFrom_self {t : Tree} (levels : Nat) {id : NodeId}
    (h : t.isElement id = true) : id ∈ t.elementsFrom (levels + 1) id := by
  rw [elementsFrom, if_pos h]
  exact List.mem_cons_self

theorem elementsFrom_subset_succ (t : Tree) (levels : Nat) (id : NodeId) :
    t.elementsFrom levels id ⊆ t.elementsFrom (levels + 1) id := by
  induction levels generalizing id with
  | zero => exact List.nil_subset _
  | succ levels ih =>
      intro x hx
      rw [elementsFrom] at hx ⊢
      split at hx
      · rename_i hid
        rw [if_pos hid]
        rcases List.mem_cons.mp hx with rfl | hbelow
        · exact List.mem_cons_self
        · obtain ⟨c, hc, hxc⟩ := List.mem_flatMap.mp hbelow
          exact List.mem_cons_of_mem _ (List.mem_flatMap.mpr ⟨c, hc, ih c hxc⟩)
      · cases hx

theorem elementsFrom_subset (t : Tree) {levels levels' : Nat} (h : levels ≤ levels') (id : NodeId) :
    t.elementsFrom levels id ⊆ t.elementsFrom levels' id := by
  induction h with
  | refl => exact List.Subset.refl _
  | step _ ih => exact List.Subset.trans ih (elementsFrom_subset_succ t _ id)

namespace Linked

variable {t : Tree} (ht : t.Linked)

include ht

theorem mem_lineage_of_mem_elementsFrom {levels : Nat} {id x : NodeId}
    (h : x ∈ t.elementsFrom levels id) : id ∈ x :: t.ancestors x := by
  induction levels generalizing id with
  | zero => cases h
  | succ levels ih =>
      rw [elementsFrom] at h
      split at h
      · rcases List.mem_cons.mp h with rfl | hbelow
        · exact List.mem_cons_self
        · obtain ⟨c, hc, hx⟩ := List.mem_flatMap.mp hbelow
          have hparent := (ht.mem_children_iff id c).mp hc
          exact List.mem_cons_of_mem _ (ht.parent_mem_ancestors (ih hx) hparent)
      · cases h

/-- The walk that meets a node meets its element children on the next level. -/
theorem mem_elementsFrom_child {levels : Nat} {id x c : NodeId} (h : x ∈ t.elementsFrom levels id)
    (hparent : t.parent? c = some x) (hc : t.isElement c = true) :
    c ∈ t.elementsFrom (levels + 1) id := by
  induction levels generalizing id with
  | zero => cases h
  | succ levels ih =>
      rw [elementsFrom] at h ⊢
      split at h
      · rename_i hid
        rw [if_pos hid]
        refine List.mem_cons_of_mem _ (List.mem_flatMap.mpr ?_)
        rcases List.mem_cons.mp h with rfl | hbelow
        · exact ⟨c, (ht.mem_children_iff x c).mpr hparent, mem_elementsFrom_self levels hc⟩
        · obtain ⟨y, hy, hx⟩ := List.mem_flatMap.mp hbelow
          exact ⟨y, hy, ih hx⟩
      · cases h

/-- An element below the document is met on the walk down from some child of the document,
    as many levels down as its way up is long. -/
theorem exists_mem_elementsFrom (hnested : t.Nested) {x : NodeId} {l : List NodeId}
    (h : t.Lineage x l) (hx : t.isElement x = true) (hroot : root ∈ l) :
    ∃ c ∈ t.children root, x ∈ t.elementsFrom l.length c := by
  induction h with
  | top => cases hroot
  | @step x parent l hsome hl ih =>
      rcases hnested x parent hsome with rfl | hparent
      · exact ⟨x, (ht.mem_children_iff root x).mpr hsome, mem_elementsFrom_self l.length hx⟩
      · -- The parent is met one level further up, and its children one level below it.
        have hne : root ≠ parent := (ht.ne_root_of_isElement hparent).symm
        have hroot' : root ∈ l := (List.mem_cons.mp hroot).resolve_left hne
        obtain ⟨c, hc, hmem⟩ := ih hparent hroot'
        exact ⟨c, hc, ht.mem_elementsFrom_child hmem hsome hx⟩

/-- The elements of a document are those with the document node above them. -/
theorem mem_elements_iff (hnested : t.Nested) (x : NodeId) :
    x ∈ t.elements ↔ t.isElement x = true ∧ root ∈ t.ancestors x := by
  rw [elements_eq, List.mem_flatMap]
  constructor
  · intro h
    obtain ⟨c, hc, hx⟩ := h
    have hparent := (ht.mem_children_iff root c).mp hc
    exact ⟨isElement_of_mem_elementsFrom hx,
      ht.parent_mem_ancestors (ht.mem_lineage_of_mem_elementsFrom hx) hparent⟩
  · intro h
    obtain ⟨c, hc, hx⟩ := ht.exists_mem_elementsFrom hnested (ht.lineage_ancestors x) h.1 h.2
    -- The walk goes down as many levels as there are nodes, which is far enough.
    exact ⟨c, hc, elementsFrom_subset t (Nat.le_of_lt (ht.length_ancestors_lt x)) c hx⟩

/-! ## No element twice -/

theorem disjoint_elementsFrom (levels : Nat) {p c c' : NodeId} (hc : c ∈ t.children p)
    (hc' : c' ∈ t.children p) (hne : c ≠ c') :
    List.Disjoint (t.elementsFrom levels c) (t.elementsFrom levels c') := by
  intro x hx hx'
  exact hne (ht.sibling_unique (ht.mem_lineage_of_mem_elementsFrom hx)
    (ht.mem_lineage_of_mem_elementsFrom hx') ((ht.mem_children_iff p c).mp hc)
    ((ht.mem_children_iff p c').mp hc'))

theorem nodup_flatMap_elementsFrom (levels : Nat) (p : NodeId)
    (heach : ∀ c, (t.elementsFrom levels c).Nodup) :
    ((t.children p).flatMap (t.elementsFrom levels)).Nodup := by
  refine List.nodup_flatMap.mpr ⟨fun c _ => heach c, ?_⟩
  refine (ht.nodup_children p).pairwise_of_forall_ne ?_
  intro c hc c' hc' hne
  exact ht.disjoint_elementsFrom levels hc hc' hne

theorem nodup_elementsFrom (levels : Nat) (id : NodeId) : (t.elementsFrom levels id).Nodup := by
  induction levels generalizing id with
  | zero => exact List.nodup_nil
  | succ levels ih =>
      rw [elementsFrom]
      split
      · refine List.nodup_cons.mpr ⟨fun hmem => ?_, ht.nodup_flatMap_elementsFrom levels id ih⟩
        -- What is met below a node has that node on its way up.
        obtain ⟨c, hc, hid⟩ := List.mem_flatMap.mp hmem
        exact ht.not_mem_ancestors_self id (ht.parent_mem_ancestors
          (ht.mem_lineage_of_mem_elementsFrom hid) ((ht.mem_children_iff id c).mp hc))
      · exact List.nodup_nil

theorem nodup_elements : t.elements.Nodup := by
  rw [elements_eq]
  exact ht.nodup_flatMap_elementsFrom t.size root (ht.nodup_elementsFrom t.size)

end Linked

end UniqueSelector.Tree
