/-
  UniqueSelector.Proofs.Dom.Preorder

  A sketch and the document made of it say the same. Grafting numbers the nodes as
  it meets them, a node before its content, so the nodes of a sketch take up the
  numbers from its top node on, without a gap.

    * `Tree.readBack` — the sketch below a node; `Tree.preorder` — the nodes below it.
    * `Tree.SketchAt` — a sketch laid out in the tree from some number on, the shape
      that grafting makes (`sketchAt_graft`) and later grafts keep (`SketchAt.congr`).
    * `Tree.Encodes` — what a sketch laid out behind the document node comes to.
    * `Tree.load_encodes` — loaded documents, by the value that the text has.

  Everything about one sketch is a mutual recursion over it and its content.
-/

import UniqueSelector.Proofs.Dom.Description
import UniqueSelector.Proofs.Dom.Loading
import UniqueSelector.Proofs.Dom.Order

namespace UniqueSelector.Tree

/-! ## Reading a tree -/

/-- The sketch that a node and all below it make up, through `levels` levels. The document is in
    no sketch. -/
def readBack (t : Tree) : Nat → NodeId → Option Sketch
  | 0, _ => none
  | levels + 1, id =>
    match t.kind? id with
    | some (.text s) => some (.text s)
    | some (.comment s) => some (.comment s)
    | some (.element data) => ((t.children id).mapM (t.readBack levels)).map (.element data)
    | some .document => none
    | none => none

/-- The content of the document. -/
def content? (t : Tree) : Option (List Sketch) :=
  (t.children root).mapM (t.readBack t.size)

/-- A node and all below it in tree order, through `levels` levels. -/
def preorder (t : Tree) : Nat → NodeId → List NodeId
  | 0, _ => []
  | levels + 1, id => id :: (t.children id).flatMap (t.preorder levels)

/-! ## The shape that grafting makes -/

/-- The numbers of the top nodes of sketches laid out one behind the other. -/
def tops : Nat → List Sketch → List NodeId
  | _, [] => []
  | id, s :: rest => id :: tops (id + s.size) rest

/-- A node without content. -/
structure LeafAt (t : Tree) (id : Nat) (kind : NodeKind) : Prop where
  kind?_eq : t.kind? id = some kind
  children_eq : t.children id = []

mutual

/-- The sketch lies in the tree, its top node at `id` and its content right behind it. -/
def SketchAt (t : Tree) (id : Nat) : Sketch → Prop
  | .text s => t.LeafAt id (.text s)
  | .comment s => t.LeafAt id (.comment s)
  | .element data content => t.kind? id = some (.element data) ∧
      t.children id = tops (id + 1) content ∧ t.SketchesAt (id + 1) content

/-- The sketches lie in the tree one behind the other, from `id` on. -/
def SketchesAt (t : Tree) (id : Nat) : List Sketch → Prop
  | [] => True
  | s :: rest => t.SketchAt id s ∧ t.SketchesAt (id + s.size) rest

end

theorem LeafAt.congr {t t' : Tree} {id : Nat} {kind : NodeKind} (h : t.LeafAt id kind)
    (hsame : t'.kind? id = t.kind? id ∧ t'.children id = t.children id) : t'.LeafAt id kind where
  kind?_eq := hsame.1.trans h.kind?_eq
  children_eq := hsame.2.trans h.children_eq

mutual

/-- Only the nodes of the sketch count. -/
theorem SketchAt.congr {t t' : Tree} {id : Nat} : ∀ {s : Sketch}, t.SketchAt id s →
    (∀ x : Nat, id ≤ x → x < id + s.size → t'.kind? x = t.kind? x ∧ t'.children x = t.children x) →
    t'.SketchAt id s
  | .text s, h, hsame => LeafAt.congr h (hsame id (Nat.le_refl _) (Nat.lt_succ_self _))
  | .comment s, h, hsame => LeafAt.congr h (hsame id (Nat.le_refl _) (Nat.lt_succ_self _))
  | .element data content, h, hsame => by
      rw [Sketch.size] at hsame
      obtain ⟨hkind, hchildren⟩ := hsame id (Nat.le_refl _) (by omega)
      rw [SketchAt, hkind, hchildren]
      refine ⟨h.1, h.2.1, SketchesAt.congr h.2.2 fun x hx hx' => ?_⟩
      apply hsame x <;> omega

theorem SketchesAt.congr {t t' : Tree} {id : Nat} : ∀ {content : List Sketch},
    t.SketchesAt id content →
    (∀ x : Nat, id ≤ x → x < id + Sketch.sizeAll content →
      t'.kind? x = t.kind? x ∧ t'.children x = t.children x) →
    t'.SketchesAt id content
  | [], _, _ => trivial
  | s :: rest, h, hsame => by
      rw [Sketch.sizeAll] at hsame
      constructor
      · apply SketchAt.congr h.1
        intro x hx hx'
        apply hsame x <;> omega
      · apply SketchesAt.congr h.2
        intro x hx hx'
        apply hsame x <;> omega

end

/-- A graft below an earlier node leaves a sketch as it lies. -/
theorem GraftedAt.sketchAt {t t' : Tree} {parent id : Nat} {s : Sketch}
    (h : GraftedAt t t' parent) (hs : t.SketchAt id s) (hparent : parent < id)
    (hsize : id + s.size ≤ t.size) : t'.SketchAt id s := by
  apply hs.congr
  intro x hx hx'
  constructor
  · apply h.kind?_eq
    omega
  · apply h.children_eq
    · omega
    · exact Nat.ne_of_gt (Nat.lt_of_lt_of_le hparent hx)

section Grafts

variable {t : Tree} {parent : NodeId}

/-- A sketch adds one child to the node that it is put below. -/
theorem children_graft (h : t.Whole) (hparent : parent < t.size) (hhold : t.MayHold parent)
    (s : Sketch) : (t.graft parent s).children parent = t.children parent ++ [t.size] := by
  cases s with
  | text s => rw [graft, children_addChild hparent, if_pos rfl]
  | comment s => rw [graft, children_addChild hparent, if_pos rfl]
  | element data content =>
      have htop := graftedAt_addChild h hparent hhold (.element data)
      have hcontent := graftedAt_graftAll htop.whole (size_lt_addChild t parent (.element data))
        (mayHold_addChild_size t parent data) content
      -- What is put below the new node leaves the list of its parent alone.
      rw [graft, hcontent.children_eq parent (Nat.lt_of_lt_of_le hparent htop.size_le)
        (Nat.ne_of_lt hparent), children_addChild hparent, if_pos rfl]

theorem children_graftAll (h : t.Whole) (hparent : parent < t.size) (hhold : t.MayHold parent)
    (content : List Sketch) :
    (t.graftAll parent content).children parent = t.children parent ++ tops t.size content := by
  induction content generalizing t with
  | nil => rw [graftAll, tops, List.append_nil]
  | cons s rest ih =>
      have hfirst := graftedAt_graft h hparent hhold s
      rw [graftAll, ih hfirst.whole (Nat.lt_of_lt_of_le hparent hfirst.size_le)
        (hhold.congr (hfirst.kind?_eq parent hparent)), children_graft h hparent hhold, size_graft,
        List.append_assoc]
      rfl

theorem leafAt_addChild (hparent : parent < t.size) (kind : NodeKind) :
    (t.addChild parent kind).LeafAt t.size kind where
  kind?_eq := kind?_addChild_size t parent kind
  children_eq := by
    rw [children_addChild hparent, if_neg (Nat.ne_of_gt hparent), children_size]

end Grafts

mutual

theorem sketchAt_graft {t : Tree} (h : t.Whole) {parent : NodeId} (hparent : parent < t.size)
    (hhold : t.MayHold parent) : ∀ s : Sketch, (t.graft parent s).SketchAt t.size s
  | .text s => leafAt_addChild hparent (.text s)
  | .comment s => leafAt_addChild hparent (.comment s)
  | .element data content => by
      have hwhole := h.addChild hparent hhold (.element data)
      have hlt := size_lt_addChild t parent (.element data)
      have hholds := mayHold_addChild_size t parent data
      rw [graft, SketchAt]
      refine ⟨?_, ?_, ?_⟩
      · rw [(graftedAt_graftAll hwhole hlt hholds content).kind?_eq _ hlt]
        exact kind?_addChild_size t parent _
      · -- The new node has no children before its content is put below it.
        rw [children_graftAll hwhole hlt hholds,
          (leafAt_addChild hparent (.element data)).children_eq, size_addChild]
        rfl
      · rw [← size_addChild t parent (.element data)]
        exact sketchesAt_graftAll hwhole hlt hholds content

theorem sketchesAt_graftAll {t : Tree} (h : t.Whole) {parent : NodeId} (hparent : parent < t.size)
    (hhold : t.MayHold parent) :
    ∀ content : List Sketch, (t.graftAll parent content).SketchesAt t.size content
  | [] => trivial
  | s :: rest => by
      have hfirst := graftedAt_graft h hparent hhold s
      have hlt := Nat.lt_of_lt_of_le hparent hfirst.size_le
      have hholds := hhold.congr (hfirst.kind?_eq parent hparent)
      rw [graftAll, SketchesAt]
      constructor
      · -- The sketches behind it are put beside it.
        apply (graftedAt_graftAll hfirst.whole hlt hholds rest).sketchAt
          (sketchAt_graft h hparent hhold s) hparent
        rw [size_graft]
      · rw [← size_graft t parent s]
        exact sketchesAt_graftAll hfirst.whole hlt hholds rest

end

/-! ## What is read from it -/

mutual

/-- A sketch has no more levels than nodes. -/
theorem SketchAt.readBack_eq {t : Tree} {id levels : Nat} :
    ∀ {s : Sketch}, t.SketchAt id s → s.size ≤ levels → t.readBack levels id = some s
  | .text s, h, hlevels => by
      obtain ⟨levels, rfl⟩ := Nat.exists_eq_add_of_le' hlevels
      rw [Sketch.size, readBack, LeafAt.kind?_eq h]
  | .comment s, h, hlevels => by
      obtain ⟨levels, rfl⟩ := Nat.exists_eq_add_of_le' hlevels
      rw [Sketch.size, readBack, LeafAt.kind?_eq h]
  | .element data content, h, hlevels => by
      rw [Sketch.size, Nat.add_comm] at hlevels
      obtain ⟨levels, rfl⟩ := Nat.exists_eq_add_of_le' (Nat.le_of_add_left_le hlevels)
      rw [readBack, h.1]
      dsimp only
      rw [h.2.1, SketchesAt.readBack_eq h.2.2 (Nat.le_of_add_le_add_right hlevels)]
      rfl

theorem SketchesAt.readBack_eq {t : Tree} {id levels : Nat} :
    ∀ {content : List Sketch}, t.SketchesAt id content → Sketch.sizeAll content ≤ levels →
      (tops id content).mapM (t.readBack levels) = some content
  | [], _, _ => rfl
  | s :: rest, h, hlevels => by
      rw [Sketch.sizeAll] at hlevels
      rw [tops, List.mapM_cons, SketchAt.readBack_eq h.1 (Nat.le_of_add_right_le hlevels),
        SketchesAt.readBack_eq h.2 (Nat.le_of_add_left_le hlevels)]
      rfl

end

theorem LeafAt.preorder_eq {t : Tree} {id levels : Nat} {kind : NodeKind} (h : t.LeafAt id kind)
    (hlevels : 1 ≤ levels) : t.preorder levels id = List.range' id 1 := by
  obtain ⟨levels, rfl⟩ := Nat.exists_eq_add_of_le' hlevels
  rw [preorder, h.children_eq]
  rfl

mutual

/-- The nodes of a sketch are met in the order of their numbers. -/
theorem SketchAt.preorder_eq {t : Tree} {id levels : Nat} :
    ∀ {s : Sketch}, t.SketchAt id s → s.size ≤ levels →
      t.preorder levels id = List.range' id s.size
  | .text _, h, hlevels => LeafAt.preorder_eq h hlevels
  | .comment _, h, hlevels => LeafAt.preorder_eq h hlevels
  | .element data content, h, hlevels => by
      rw [Sketch.size, Nat.add_comm] at hlevels
      obtain ⟨levels, rfl⟩ := Nat.exists_eq_add_of_le' (Nat.le_of_add_left_le hlevels)
      rw [preorder, h.2.1, SketchesAt.preorder_eq h.2.2 (Nat.le_of_add_le_add_right hlevels),
        Sketch.size, Nat.add_comm 1, List.range'_succ]

theorem SketchesAt.preorder_eq {t : Tree} {id levels : Nat} :
    ∀ {content : List Sketch}, t.SketchesAt id content → Sketch.sizeAll content ≤ levels →
      (tops id content).flatMap (t.preorder levels) = List.range' id (Sketch.sizeAll content)
  | [], _, _ => rfl
  | s :: rest, h, hlevels => by
      rw [Sketch.sizeAll] at hlevels
      rw [tops, List.flatMap_cons, SketchAt.preorder_eq h.1 (Nat.le_of_add_right_le hlevels),
        SketchesAt.preorder_eq h.2 (Nat.le_of_add_left_le hlevels), Sketch.sizeAll,
        List.range'_append_1]

end

/-! ## Elements among all nodes -/

/-- A node that is no element and not the document has no content. -/
theorem Linked.children_eq_nil {t : Tree} (ht : t.Linked) (hnested : t.Nested) {id : NodeId}
    (hroot : id ≠ root) (hid : t.isElement id = false) : t.children id = [] := by
  apply List.eq_nil_iff_forall_not_mem.mpr
  intro child hchild
  rcases hnested child id ((ht.mem_children_iff id child).mp hchild) with heq | helement
  · exact hroot heq
  · rw [hid] at helement
    cases helement

/-- The walk through elements leaves out the other nodes and nothing more. -/
theorem Linked.elementsFrom_eq_filter {t : Tree} (ht : t.Linked) (hnested : t.Nested)
    (levels : Nat) {id : NodeId} (hroot : id ≠ root) :
    t.elementsFrom levels id = (t.preorder levels id).filter t.isElement := by
  induction levels generalizing id with
  | zero => rfl
  | succ levels ih =>
      rw [elementsFrom, preorder]
      cases hid : t.isElement id with
      | false =>
          rw [ht.children_eq_nil hnested hroot hid, List.filter_cons_of_neg (by rw [hid]; decide)]
          rfl
      | true =>
          rw [if_pos rfl, List.filter_cons_of_pos hid, List.filter_flatMap]
          congr 1
          apply List.flatMap_congr
          intro c hc
          exact ih (ht.ne_root_of_mem_children hc)

/-! ## Numbers below and beside -/

theorem le_of_mem_tops {content : List Sketch} {id x : Nat} (h : x ∈ tops id content) :
    id ≤ x := by
  induction content generalizing id with
  | nil => cases h
  | cons s rest ih =>
      rcases List.mem_cons.mp h with rfl | h
      · exact Nat.le_refl _
      · exact Nat.le_of_add_right_le (ih h)

section Numbers

variable {t : Tree}

theorem SketchesAt.exists_of_mem {content : List Sketch} {id x : Nat}
    (h : t.SketchesAt id content) (hx : x ∈ tops id content) :
    ∃ s, t.SketchAt x s ∧ x + s.size ≤ id + Sketch.sizeAll content := by
  induction content generalizing id with
  | nil => cases hx
  | cons s rest ih =>
      rw [Sketch.sizeAll]
      rcases List.mem_cons.mp hx with rfl | hx
      · exact ⟨s, h.1, by omega⟩
      · obtain ⟨s', hs', hsize⟩ := ih h.2 hx
        exact ⟨s', hs', by omega⟩

/-- Of two sketches one behind the other, the first ends before the second. -/
theorem SketchesAt.exists_of_sublist {content : List Sketch} {id left right : Nat}
    (h : t.SketchesAt id content) (hsublist : [left, right].Sublist (tops id content)) :
    ∃ s, t.SketchAt left s ∧ left + s.size ≤ right := by
  induction content generalizing id with
  | nil => cases hsublist
  | cons s rest ih =>
      rw [tops] at hsublist
      rcases List.cons_sublist_cons'.mp hsublist with hrest | ⟨rfl, hright⟩
      · exact ih h.2 hrest
      · exact ⟨s, h.1, le_of_mem_tops (List.singleton_sublist.mp hright)⟩

/-- The children of a node, where they are sketches laid out right behind it. -/
def Laid (t : Tree) (id : Nat) (content : List Sketch) : Prop :=
  t.children id = tops (id + 1) content ∧ t.SketchesAt (id + 1) content

theorem SketchAt.exists_laid {id : Nat} {s : Sketch} (h : t.SketchAt id s) :
    ∃ content, t.Laid id content ∧ s.size = 1 + Sketch.sizeAll content := by
  cases s with
  | text s => exact ⟨[], ⟨LeafAt.children_eq h, trivial⟩, rfl⟩
  | comment s => exact ⟨[], ⟨LeafAt.children_eq h, trivial⟩, rfl⟩
  | element data content => exact ⟨content, h.2, by rw [Sketch.size]⟩

mutual

/-- Each number within a sketch is the top of a part of it. -/
theorem SketchAt.exists_within {id x : Nat} : ∀ {s : Sketch}, t.SketchAt id s → id ≤ x →
    x < id + s.size → ∃ part, t.SketchAt x part ∧ x + part.size ≤ id + s.size
  | .text s, h, hx, hx' => by
      rw [Sketch.size] at hx'
      obtain rfl : x = id := by omega
      exact ⟨.text s, h, Nat.le_refl _⟩
  | .comment s, h, hx, hx' => by
      rw [Sketch.size] at hx'
      obtain rfl : x = id := by omega
      exact ⟨.comment s, h, Nat.le_refl _⟩
  | .element data content, h, hx, hx' => by
      rcases Nat.eq_or_lt_of_le hx with rfl | hbelow
      · exact ⟨.element data content, h, Nat.le_refl _⟩
      · rw [Sketch.size] at hx' ⊢
        obtain ⟨part, hpart, hsize⟩ := SketchesAt.exists_within h.2.2 hbelow (by omega)
        exact ⟨part, hpart, by omega⟩

theorem SketchesAt.exists_within {id x : Nat} : ∀ {content : List Sketch},
    t.SketchesAt id content → id ≤ x → x < id + Sketch.sizeAll content →
    ∃ part, t.SketchAt x part ∧ x + part.size ≤ id + Sketch.sizeAll content
  | [], _, hx, hx' => absurd hx' (Nat.not_lt.mpr hx)
  | s :: rest, h, hx, hx' => by
      rw [Sketch.sizeAll] at hx' ⊢
      -- It is within the first sketch or within those behind it.
      by_cases hfirst : x < id + s.size
      · obtain ⟨part, hpart, hsize⟩ := SketchAt.exists_within h.1 hx hfirst
        exact ⟨part, hpart, by omega⟩
      · have hrest := Nat.not_lt.mp hfirst
        obtain ⟨part, hpart, hsize⟩ := SketchesAt.exists_within h.2 hrest (by omega)
        exact ⟨part, hpart, by omega⟩

end

/-- What lies below the top of a sketch is a part of it. -/
theorem SketchAt.lt_of_above (ht : t.Linked) {id x : Nat} {s : Sketch} (h : t.SketchAt id s)
    (hx : t.Above id x) : x < id + s.size := by
  suffices hpart : ∃ part, t.SketchAt x part ∧ x + part.size ≤ id + s.size by
    obtain ⟨part, -, hsize⟩ := hpart
    have hpos := part.size_pos
    omega
  have hchild : ∀ {x y : Nat} {part : Sketch}, t.parent? x = some y → t.SketchAt y part →
      ∃ below, t.SketchAt x below ∧ x + below.size ≤ y + part.size := by
    intro x y part hparent hpart
    obtain ⟨content, hlaid, hsize⟩ := hpart.exists_laid
    have hmem := (ht.mem_children_iff y x).mpr hparent
    rw [hlaid.1] at hmem
    obtain ⟨below, hbelow, hle⟩ := hlaid.2.exists_of_mem hmem
    exact ⟨below, hbelow, by omega⟩
  -- On the way up from the node, what its parent is a part of, it is a part of too.
  induction hx using Relation.TransGen.head_induction_on with
  | single hparent => exact hchild hparent h
  | head hparent _ ih =>
      obtain ⟨part, hpart, hsize⟩ := ih
      obtain ⟨below, hbelow, hle⟩ := hchild hparent hpart
      exact ⟨below, hbelow, Nat.le_trans hle hsize⟩

end Numbers

/-! ## Documents of sketches -/

/-- The tree is a document with the sketch as its only content, in preorder. -/
structure Encodes (t : Tree) (s : Sketch) : Prop where
  size_eq : t.size = 1 + s.size
  content?_eq : t.content? = some [s]
  preorder_eq : t.preorder t.size root = List.range t.size
  parent_lt : ∀ id parent, t.parent? id = some parent → parent < id
  -- A node comes behind all that its earlier siblings hold.
  earlier_lt : ∀ left right x, t.Earlier left right → x = left ∨ t.Above left x → x < right
  elements_eq : t.elements = (List.range t.size).filter t.isElement

theorem encodes_of_laid {t : Tree} (ht : t.Linked) (hnested : t.Nested) {s : Sketch}
    (hsize : t.size = 1 + s.size) (hroot : t.Laid root [s]) : t.Encodes s := by
  have hs : t.SketchAt 1 s := hroot.2.1
  have hlevels : s.size ≤ t.size := by omega
  have hnumbers : List.range t.size = root :: List.range' 1 s.size := by
    rw [hsize, Nat.add_comm, List.range_eq_range', List.range'_succ]
    rfl
  -- Every node has its content laid out behind it.
  have hlaid : ∀ id : Nat, id < t.size → ∃ content, t.Laid id content := by
    intro id hid
    cases id with
    | zero => exact ⟨[s], hroot⟩
    | succ id =>
        obtain ⟨part, hpart, -⟩ := hs.exists_within (Nat.succ_le_succ (Nat.zero_le id)) (by omega)
        obtain ⟨content, hcontent, -⟩ := hpart.exists_laid
        exact ⟨content, hcontent⟩
  refine ⟨hsize, ?_, ?_, ?_, ?_, ?_⟩
  · rw [content?, hroot.1]
    exact hroot.2.readBack_eq (by rw [Sketch.sizeAll, Sketch.sizeAll]; omega)
  · have hcontent := hroot.2.preorder_eq (Nat.le_refl (Sketch.sizeAll [s]))
    rw [Sketch.sizeAll, Sketch.sizeAll, Nat.add_zero] at hcontent
    rw [hnumbers, hsize, Nat.add_comm, preorder, hroot.1, hcontent]
    rfl
  · intro id parent hparent
    obtain ⟨content, hcontent, -⟩ := hlaid parent (ht.lt_of_parent? hparent).2
    have hmem := (ht.mem_children_iff parent id).mpr hparent
    rw [hcontent] at hmem
    exact le_of_mem_tops hmem
  · rintro left right x ⟨parent, hsublist⟩ hx
    have hleft := (ht.mem_children_iff parent left).mp (hsublist.subset List.mem_cons_self)
    obtain ⟨content, hcontent, hall⟩ := hlaid parent (ht.lt_of_parent? hleft).2
    rw [hcontent] at hsublist
    obtain ⟨part, hpart, hle⟩ := hall.exists_of_sublist hsublist
    rcases hx with rfl | habove
    · exact Nat.lt_of_lt_of_le (Nat.lt_add_of_pos_right part.size_pos) hle
    · exact Nat.lt_of_lt_of_le (hpart.lt_of_above ht habove) hle
  · have htop := ht.elementsFrom_eq_filter hnested t.size Nat.one_ne_zero
    rw [hs.preorder_eq hlevels] at htop
    rw [elements_eq, hroot.1, tops, tops, List.flatMap_singleton, root, Nat.zero_add, htop]
    -- The document node in front of the others is no element.
    rw [hnumbers, List.filter_cons_of_neg (by rw [ht.isElement_root]; decide)]

theorem encodes_ofSketch (markup : Markup) {s : Sketch} (h : s.isElement = true) :
    (ofSketch markup s).Encodes s := by
  have hdocument := isDocument_ofSketch markup h
  have hwhole := whole_empty markup
  have hhold : (empty markup).MayHold root := Or.inl rfl
  apply encodes_of_laid hdocument.linked hdocument.nested
  · rw [ofSketch, size_graft]
    rfl
  · constructor
    · exact children_graft hwhole Nat.one_pos hhold s
    · exact ⟨sketchAt_graft hwhole Nat.one_pos hhold s, trivial⟩

theorem ofDocument_eq_ok_iff {markup : Markup} {s : Sketch} {t : Tree} :
    ofDocument markup s = .ok t ↔ s.isElement = true ∧ t = ofSketch markup s := by
  rw [ofDocument]
  cases s.isElement <;> simp [eq_comm]

/-- What loads from the text of a value. -/
theorem load_eq_ok_iff {markup : Markup} {json : String} {v : Json} {t : Tree}
    (h : Json.ofString? json = some v) :
    load markup json = .ok t ↔
      ∃ s, Sketch.ofJson? v = some s ∧ s.isElement = true ∧ t = ofSketch markup s := by
  rw [load, h, Option.bind_some]
  cases Sketch.ofJson? v with
  | none => simp
  | some s => simp [ofDocument_eq_ok_iff]

/-- What loads from the text of a value is a document of an element that the value stands for, and
    such a document loads if there is one. A string is no document. -/
theorem load_encodes (markup : Markup) {json : String} {v : Json}
    (h : Json.ofString? json = some v) :
    (∀ t, load markup json = .ok t → ∃ s, s.isElement = true ∧ v.StandsFor s ∧ t.Encodes s) ∧
      ((∃ t, load markup json = .ok t) ↔ ∃ s, s.isElement = true ∧ v.StandsFor s) ∧
      (∀ text, v = .text text → load markup json = .error .textOnly) := by
  refine ⟨?_, ⟨?_, ?_⟩, ?_⟩
  · intro t ht
    obtain ⟨s, hs, helement, rfl⟩ := (load_eq_ok_iff h).mp ht
    exact ⟨s, helement, Sketch.standsFor_of_ofJson? hs, encodes_ofSketch markup helement⟩
  · rintro ⟨t, ht⟩
    obtain ⟨s, hs, helement, -⟩ := (load_eq_ok_iff h).mp ht
    exact ⟨s, helement, Sketch.standsFor_of_ofJson? hs⟩
  · rintro ⟨s, helement, hs⟩
    obtain ⟨s', hs', heq⟩ := Sketch.exists_ofJson? hs
    exact ⟨ofSketch markup s', (load_eq_ok_iff h).mpr ⟨s', hs', heq.trans helement, rfl⟩⟩
  · rintro text rfl
    rw [load, h, Option.bind_some, Sketch.ofJson?_eq_text_iff.mpr rfl]
    rfl

/-- A paragraph of an element with a text and of a text. Of its two ids the later counts. -/
theorem load_encodes_paragraph :
    let json :=
      "\x7b\"tag\":\"p\",\"attrs\":\x7b\"id\":\"old\",\"lang\":\"en\",\"id\":\"new\"\x7d," ++
      "\"children\":[\x7b\"tag\":\"b\",\"children\":[\"one\"]\x7d,\"two\"]\x7d"
    let v : Json := .object [("tag", .text "p"),
      ("attrs", .object [("id", .text "old"), ("lang", .text "en"), ("id", .text "new")]),
      ("children", .array [.object [("tag", .text "b"), ("children", .array [.text "one"])],
        .text "two"])]
    Json.ofString? json = some v ∧
      ∃ t s, load .html json = .ok t ∧ v.StandsFor s ∧ t.Encodes s ∧ t.size = 5 ∧
        t.attribute? 1 "id" = some "new" ∧ t.attribute? 1 "lang" = some "en" ∧
        t.attribute? 1 "class" = none := by
  intro json v
  have htokens : Json.tokens? json.toList = some
      [.openObject, .text "tag", .colon, .text "p", .comma, .text "attrs", .colon, .openObject,
        .text "id", .colon, .text "old", .comma, .text "lang", .colon, .text "en", .comma,
        .text "id", .colon, .text "new", .closeObject, .comma, .text "children", .colon, .openArray,
        .openObject, .text "tag", .colon, .text "b", .comma, .text "children", .colon, .openArray,
        .text "one", .closeArray, .closeObject, .comma, .text "two", .closeArray,
        .closeObject] := by
    subst json
    decide +kernel
  have hvalue : Json.ofString? json = some v := by
    rw [Json.ofString?, htokens]
    rfl
  have hload : load .html json = .ok (ofSketch .html
      (.element ⟨"p", ⟨[("id", "new"), ("lang", "en")]⟩⟩
        [.element ⟨"b", ⟨[]⟩⟩ [.text "one"], .text "two"])) := by
    rw [load, hvalue]
    rfl
  obtain ⟨s, -, hs, hencodes⟩ := (load_encodes .html hvalue).1 _ hload
  exact ⟨hvalue, _, s, hload, hs, hencodes, rfl, rfl, rfl, rfl⟩

end UniqueSelector.Tree
