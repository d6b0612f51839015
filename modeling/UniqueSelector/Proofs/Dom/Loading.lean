/-
  UniqueSelector.Proofs.Dom.Loading

  What is true of every loaded document: fit calls built it, no node of it is
  detached, and the document node has one child, the document element.

    * `Tree.GraftedAt` — what grafting below a node keeps of the tree before;
      its two step lemmas are `graftedAt_addChild` and `GraftedAt.trans`.
    * `Tree.IsDocument`, `Tree.isDocument_of_load` — loaded documents.

  Grafting runs along the sketch, so the run lemma is one mutual recursion over a
  sketch and its content.
-/

import UniqueSelector.Dom.Document
import UniqueSelector.Proofs.Dom.Elements

namespace UniqueSelector.Tree

/-! ## One new child -/

/-- Fit calls built the tree, and every node of it lies below the document. -/
structure Whole (t : Tree) : Prop where
  grown : Grown MayHold t
  attached : ∀ id, id < t.size → id ≠ root → ∃ parent, t.parent? id = some parent

theorem lt_size_push {t : Tree} {kind : NodeKind} {parent : NodeId} (hparent : parent < t.size) :
    parent < (t.push kind).size ∧ t.size < (t.push kind).size := by
  rw [size_push]
  exact ⟨Nat.lt_succ_of_lt hparent, Nat.lt_succ_self _⟩

theorem kind?_addChild {t : Tree} {parent id : NodeId} (kind : NodeKind) (hid : id < t.size) :
    (t.addChild parent kind).kind? id = t.kind? id := by
  rw [addChild, kind?_append, kind?_push, if_neg (Nat.ne_of_lt hid)]

theorem kind?_addChild_size (t : Tree) (parent : NodeId) (kind : NodeKind) :
    (t.addChild parent kind).kind? t.size = some kind := by
  rw [addChild, kind?_append, kind?_push, if_pos rfl]

theorem parent?_addChild {t : Tree} {parent : NodeId} (hparent : parent < t.size) (kind : NodeKind)
    (id : NodeId) : (t.addChild parent kind).parent? id =
      if id = t.size then some parent else t.parent? id := by
  rw [addChild, parent?_append _ (lt_size_push hparent), parent?_push]

theorem children_addChild {t : Tree} {parent : NodeId} (hparent : parent < t.size) (kind : NodeKind)
    (id : NodeId) : (t.addChild parent kind).children id =
      if id = parent then t.children id ++ [t.size] else t.children id := by
  rw [addChild, children_append _ (lt_size_push hparent), children_push]

theorem MayHold.congr {t t' : Tree} {id : NodeId} (h : t.MayHold id)
    (hkind : t'.kind? id = t.kind? id) : t'.MayHold id := by
  rw [MayHold, isElement_congr hkind]
  exact h

theorem Whole.addChild {t : Tree} (h : t.Whole) {parent : NodeId} (hparent : parent < t.size)
    (hhold : t.MayHold parent) (kind : NodeKind) : (t.addChild parent kind).Whole where
  grown := by
    refine Grown.append (h.grown.push kind) (fun _ _ => ?_) (fun _ _ => hhold.congr ?_)
    · exact mayAppend_push h.grown.linked hparent kind
    · rw [kind?_push, if_neg (Nat.ne_of_lt hparent)]
  attached := by
    intro id hid hroot
    rw [size_addChild] at hid
    rw [parent?_addChild hparent]
    split
    · exact ⟨parent, rfl⟩
    · rename_i hne
      exact h.attached id (Nat.lt_of_le_of_ne (Nat.le_of_lt_succ hid) hne) hroot

/-! ## Grafts -/

/-- `t'` is `t` with more nodes, of which only `parent` among the nodes of `t` has a child. -/
structure GraftedAt (t t' : Tree) (parent : NodeId) : Prop where
  whole : t'.Whole
  size_le : t.size ≤ t'.size
  kind?_eq : ∀ id, id < t.size → t'.kind? id = t.kind? id
  children_eq : ∀ id, id < t.size → id ≠ parent → t'.children id = t.children id

theorem GraftedAt.refl {t : Tree} (h : t.Whole) (parent : NodeId) : GraftedAt t t parent :=
  ⟨h, Nat.le_refl _, fun _ _ => rfl, fun _ _ _ => rfl⟩

/-- A graft goes on where the last one was made, or below a node that is new. -/
theorem GraftedAt.trans {t t' t'' : Tree} {parent parent' : NodeId} (h : GraftedAt t t' parent)
    (h' : GraftedAt t' t'' parent') (hparent : parent' = parent ∨ t.size ≤ parent') :
    GraftedAt t t'' parent where
  whole := h'.whole
  size_le := Nat.le_trans h.size_le h'.size_le
  kind?_eq := by
    intro id hid
    rw [h'.kind?_eq id (Nat.lt_of_lt_of_le hid h.size_le), h.kind?_eq id hid]
  children_eq := by
    intro id hid hne
    have hne' : id ≠ parent' := by
      rcases hparent with rfl | hsize
      · exact hne
      · exact Nat.ne_of_lt (Nat.lt_of_lt_of_le hid hsize)
    rw [h'.children_eq id (Nat.lt_of_lt_of_le hid h.size_le) hne', h.children_eq id hid hne]

theorem graftedAt_addChild {t : Tree} (h : t.Whole) {parent : NodeId} (hparent : parent < t.size)
    (hhold : t.MayHold parent) (kind : NodeKind) :
    GraftedAt t (t.addChild parent kind) parent where
  whole := h.addChild hparent hhold kind
  size_le := by
    rw [size_addChild]
    exact Nat.le_succ _
  kind?_eq := fun id hid => kind?_addChild kind hid
  children_eq := by
    intro id hid hne
    rw [children_addChild hparent, if_neg hne]

theorem mayHold_addChild_size (t : Tree) (parent : NodeId) (data : Element) :
    (t.addChild parent (.element data)).MayHold t.size := by
  right
  rw [isElement, element?, kind?_addChild_size]
  rfl

theorem size_lt_addChild (t : Tree) (parent : NodeId) (kind : NodeKind) :
    t.size < (t.addChild parent kind).size := by
  rw [size_addChild]
  exact Nat.lt_succ_self _

mutual

theorem graftedAt_graft {t : Tree} (h : t.Whole) {parent : NodeId} (hparent : parent < t.size)
    (hhold : t.MayHold parent) : ∀ s : Sketch, GraftedAt t (t.graft parent s) parent
  | .text s => graftedAt_addChild h hparent hhold (.text s)
  | .comment s => graftedAt_addChild h hparent hhold (.comment s)
  | .element data content => by
      have htop := graftedAt_addChild h hparent hhold (.element data)
      have hcontent := graftedAt_graftAll htop.whole (size_lt_addChild t parent (.element data))
        (mayHold_addChild_size t parent data) content
      exact htop.trans hcontent (Or.inr (Nat.le_refl _))

theorem graftedAt_graftAll {t : Tree} (h : t.Whole) {parent : NodeId} (hparent : parent < t.size)
    (hhold : t.MayHold parent) :
    ∀ content : List Sketch, GraftedAt t (t.graftAll parent content) parent
  | [] => GraftedAt.refl h parent
  | s :: rest => by
      have hfirst := graftedAt_graft h hparent hhold s
      have hrest := graftedAt_graftAll hfirst.whole (Nat.lt_of_lt_of_le hparent hfirst.size_le)
        (hhold.congr (hfirst.kind?_eq parent hparent)) rest
      exact hfirst.trans hrest (Or.inl rfl)

end

/-! ## Loaded documents -/

/-- A whole tree whose document node has one child, the document element. -/
structure IsDocument (t : Tree) : Prop where
  whole : t.Whole
  exists_top : ∃ top, t.children root = [top] ∧ t.documentElement? = some top

theorem whole_empty (markup : Markup) : (empty markup).Whole where
  grown := Grown.empty markup
  attached := by
    intro id hid hroot
    exact absurd (Nat.lt_one_iff.mp hid) hroot

theorem isDocument_ofSketch (markup : Markup) {s : Sketch} (h : s.isElement = true) :
    (ofSketch markup s).IsDocument := by
  cases s with
  | text s => cases h
  | comment s => cases h
  | element data content =>
      have hroot : root < (empty markup).size := Nat.one_pos
      have hhold : (empty markup).MayHold root := Or.inl rfl
      have htop := graftedAt_addChild (whole_empty markup) hroot hhold (.element data)
      have hcontent := graftedAt_graftAll htop.whole (size_lt_addChild _ root (.element data))
        (mayHold_addChild_size _ root data) content
      have hchildren : (ofSketch markup (.element data content)).children root = [1] := by
        rw [ofSketch, graft, hcontent.children_eq root Nat.two_pos (Nat.ne_of_lt Nat.one_pos)]
        rfl
      refine ⟨hcontent.whole, 1, hchildren, ?_⟩
      have helement : (ofSketch markup (.element data content)).isElement 1 = true := by
        rw [ofSketch, graft, isElement_congr (hcontent.kind?_eq 1 Nat.one_lt_two)]
        rfl
      rw [documentElement?, elementChildren, hchildren, List.filter_cons_of_pos helement]
      rfl

theorem isDocument_of_load {markup : Markup} {json : String} {t : Tree}
    (h : load markup json = .ok t) : t.IsDocument := by
  rw [load] at h
  split at h
  · cases h
  · rename_i s _
    rw [ofDocument] at h
    split at h
    · rename_i helement
      cases h
      exact isDocument_ofSketch markup helement
    · cases h

/-! ## Markup -/

theorem markup_update (t : Tree) (id : NodeId) (f : Node → Node) :
    (t.update id f).markup = t.markup :=
  rfl

theorem markup_addChild (t : Tree) (parent : NodeId) (kind : NodeKind) :
    (t.addChild parent kind).markup = t.markup := by
  rw [addChild, append]
  split
  · split <;> simp only [markup_update] <;> rfl
  · rfl

mutual

theorem markup_graft (t : Tree) (parent : NodeId) :
    ∀ s : Sketch, (t.graft parent s).markup = t.markup
  | .text _ => markup_addChild t parent _
  | .comment _ => markup_addChild t parent _
  | .element data content => by
      rw [graft, markup_graftAll _ _ content, markup_addChild]

theorem markup_graftAll (t : Tree) (parent : NodeId) :
    ∀ content : List Sketch, (t.graftAll parent content).markup = t.markup
  | [] => rfl
  | s :: rest => by
      rw [graftAll, markup_graftAll _ _ rest, markup_graft _ _ s]

end

theorem markup_of_load {markup : Markup} {json : String} {t : Tree}
    (h : load markup json = .ok t) : t.markup = markup := by
  rw [load] at h
  split at h
  · cases h
  · rename_i s _
    rw [ofDocument] at h
    split at h
    · cases h
      exact markup_graft (empty markup) root s
    · cases h

/-! ## What holds in a document -/

namespace IsDocument

variable {t : Tree} (ht : t.IsDocument)

include ht

theorem linked : t.Linked :=
  ht.whole.grown.linked

theorem nested : t.Nested :=
  ht.whole.grown.nested

theorem root_mem_of_lineage {id : NodeId} {l : List NodeId} (h : t.Lineage id l)
    (hid : id < t.size) (hroot : id ≠ root) : root ∈ l := by
  induction h with
  | top hnone =>
      obtain ⟨parent, hsome⟩ := ht.whole.attached _ hid hroot
      rw [hsome] at hnone
      cases hnone
  | @step id parent l hsome hl ih =>
      by_cases hparent : parent = root
      · rw [hparent]
        exact List.mem_cons_self
      · exact List.mem_cons_of_mem _ (ih (ht.linked.lt_of_parent? hsome).2 hparent)

/-- Every element of a loaded document is one of its elements in tree order. -/
theorem mem_elements {id : NodeId} (h : t.isElement id = true) : id ∈ t.elements := by
  have hroot := ht.linked.ne_root_of_isElement h
  rw [ht.linked.mem_elements_iff ht.nested]
  refine ⟨h, ?_⟩
  exact ht.root_mem_of_lineage (ht.linked.lineage_ancestors id) (lt_size_of_isElement h) hroot

theorem mem_elements_iff (id : NodeId) : id ∈ t.elements ↔ t.isElement id = true := by
  refine ⟨fun h => ?_, ht.mem_elements⟩
  exact ((ht.linked.mem_elements_iff ht.nested id).mp h).1

/-- An element without a parent element is the document element. -/
theorem eq_documentElement {id : NodeId} (h : t.isElement id = true)
    (htop : t.parentElement? id = none) : t.documentElement? = some id := by
  have hmem := (ht.linked.mem_elements_iff ht.nested id).mp (ht.mem_elements h)
  cases hparent : t.parent? id with
  | none =>
      rw [ht.linked.ancestors_of_top hparent] at hmem
      cases hmem.2
  | some parent =>
      rw [parentElement?, hparent] at htop
      rcases ht.nested id parent hparent with rfl | helement
      · -- The document has one child only.
        obtain ⟨top, hchildren, hdocument⟩ := ht.exists_top
        have hchild := (ht.linked.mem_children_iff root id).mpr hparent
        rw [hchildren, List.mem_singleton] at hchild
        rw [hdocument, hchild]
      · rw [Option.filter_some_pos helement] at htop
        cases htop

end IsDocument

end UniqueSelector.Tree
