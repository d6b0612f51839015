/-
  UniqueSelector.Proofs.Dom.Twins

  Two documents that differ in what no selector of an element tells: their text
  nodes and comments, the attributes that are not read, how classes are written,
  the case of letters in HTML tag names, and the numbers of the nodes.

    * `Element.Alike` — two elements with the same data, as far as it is read.
    * `Tree.Twins` — the elements of the two documents correspond, with the same
      document element and the same element children in the same order.
    * `Tree.TwinDocuments` — the same for documents. Parents, siblings and places
      follow from the lists of children, since in a document every element is in
      one such list.
    * `Tree.TwinDocuments.perm_elements` — the elements of the one document are
      those of the other up to their order, which is all that a count sees.
-/

import UniqueSelector.Proofs.Dom.Loading

namespace UniqueSelector

open Text

/-! ## Elements -/

/-- The attributes whose values are read. Of the class attribute only the words are. -/
def readAttributes : List String :=
  ["id", "role", "type", "name", "href", "src"]

/-- The elements have the same tag name, as the markup has it, the same values of the attributes
    that are read, and the same classes. -/
structure Element.Alike (markup : Markup) (e e' : Element) : Prop where
  tag : e.isNamed e'.tag markup = true
  attribute? : ∀ name ∈ readAttributes, e'.attribute? name = e.attribute? name
  classes : e'.classes = e.classes

namespace Element.Alike

variable {markup : Markup} {e e' : Element} (h : e.Alike markup e')

include h

theorem selectorName : e'.selectorName markup = e.selectorName markup := by
  have htag := h.tag
  cases markup with
  | html => exact (eq_of_beq htag).symm
  | xhtml => exact (eq_of_beq htag).symm

theorem isNamed (name : String) : e'.isNamed name markup = e.isNamed name markup := by
  have hname := h.selectorName
  cases markup with
  | html => exact congrArg (· == lower name) hname
  | xhtml => exact congrArg (· == name) hname

theorem hasClass (name : String) : e'.hasClass name = e.hasClass name := by
  rw [Bool.eq_iff_iff, ← Element.mem_classes_iff, ← Element.mem_classes_iff, h.classes]

theorem hasAttribute {name : String} (hname : name ∈ readAttributes) :
    e'.hasAttribute name = e.hasAttribute name :=
  congrArg Option.isSome (h.attribute? name hname)

end Element.Alike

namespace Tree

/-! ## Documents -/

/-- `f` takes each element of `t` to one of `t'` that is alike, none is left out and none taken
    twice, and the document element and the element children of each correspond in their order. -/
structure Twins (t t' : Tree) (f : NodeId → NodeId) : Prop where
  isElement : ∀ x, t.isElement x = true → t'.isElement (f x) = true
  injective : ∀ x y, t.isElement x = true → t.isElement y = true → f x = f y → x = y
  surjective : ∀ y, t'.isElement y = true → ∃ x, t.isElement x = true ∧ f x = y
  documentElement? : t'.documentElement? = t.documentElement?.map f
  elementChildren : ∀ x, t.isElement x = true →
    t'.elementChildren (f x) = (t.elementChildren x).map f
  alike : ∀ x e e', t.element? x = some e → t'.element? (f x) = some e' → e.Alike t.markup e'

theorem Twins.exists_element? {t t' : Tree} {f : NodeId → NodeId} (h : t.Twins t' f) {x : NodeId}
    {e : Element} (he : t.element? x = some e) :
    ∃ e', t'.element? (f x) = some e' ∧ e.Alike t.markup e' := by
  have hx : t.isElement x = true := (t.isElement_iff x).mpr ⟨e, he⟩
  obtain ⟨e', he'⟩ := (t'.isElement_iff (f x)).mp (h.isElement x hx)
  exact ⟨e', he', h.alike x e e' he he'⟩

theorem Linked.parentElement?_eq_some_iff {t : Tree} (ht : t.Linked) {x parent : NodeId}
    (hx : t.isElement x = true) : t.parentElement? x = some parent ↔
      t.isElement parent = true ∧ x ∈ t.elementChildren parent := by
  rw [parentElement?, Option.filter_eq_some_iff, mem_elementChildren_iff, ht.mem_children_iff]
  tauto

theorem isElement_of_mem_elementSiblings {t : Tree} {x y : NodeId}
    (h : y ∈ t.elementSiblings x) : t.isElement y = true := by
  rw [elementSiblings] at h
  split at h
  · cases h
  · exact ((t.mem_elementChildren_iff _ y).mp h).2

/-- An index stays where it is if only the member that is looked up is taken to its like. -/
theorem idxOf?_map {f : NodeId → NodeId} {x : NodeId} {l : List NodeId}
    (h : ∀ y ∈ l, f y = f x → y = x) : (l.map f).idxOf? (f x) = l.idxOf? x := by
  induction l with
  | nil => rfl
  | cons y l ih =>
      have hsame : (f y == f x) = (y == x) := by
        rw [Bool.eq_iff_iff, beq_iff_eq, beq_iff_eq]
        exact ⟨h y List.mem_cons_self, congrArg f⟩
      rw [List.map_cons, List.idxOf?_cons, List.idxOf?_cons, hsame,
        ih fun z hz => h z (List.mem_cons_of_mem y hz)]

/-- In a document an element that has no parent element is alone. -/
theorem IsDocument.inclusiveSiblings_eq {t : Tree} (ht : t.IsDocument) {x : NodeId}
    (hx : t.isElement x = true) :
    t.inclusiveSiblings x = if (t.parentElement? x).isSome then t.elementSiblings x else [x] := by
  cases hparent : t.parentElement? x with
  | some parent =>
      have hsome := (Option.filter_eq_some_iff.mp hparent).1
      rw [inclusiveSiblings, elementSiblings, hsome, hparent]
      rfl
  | none =>
      obtain ⟨top, hchildren, htop⟩ := ht.exists_top
      rw [ht.eq_documentElement hx hparent] at htop
      obtain rfl := Option.some.inj htop
      have hsome : t.parent? x = some root := by
        rw [← ht.linked.mem_children_iff, hchildren, List.mem_singleton]
      rw [inclusiveSiblings, hsome]
      dsimp only
      rw [elementChildren, hchildren, List.filter_cons_of_pos hx, List.filter_nil]
      rfl

/-- Twins that are documents in one kind of markup. -/
structure TwinDocuments (t t' : Tree) (f : NodeId → NodeId) : Prop extends Twins t t' f where
  left : t.IsDocument
  right : t'.IsDocument
  markup : t'.markup = t.markup

namespace TwinDocuments

variable {t t' : Tree} {f : NodeId → NodeId} (h : t.TwinDocuments t' f)

include h

theorem parentElement? {x : NodeId} (hx : t.isElement x = true) :
    t'.parentElement? (f x) = (t.parentElement? x).map f := by
  have hfx := h.isElement x hx
  cases hparent : t.parentElement? x with
  | some parent =>
      obtain ⟨helement, hmem⟩ := (h.left.linked.parentElement?_eq_some_iff hx).mp hparent
      refine (h.right.linked.parentElement?_eq_some_iff hfx).mpr ⟨h.isElement parent helement, ?_⟩
      rw [h.elementChildren parent helement]
      exact List.mem_map_of_mem hmem
  | none =>
      cases hparent' : t'.parentElement? (f x) with
      | none => rfl
      | some parent' =>
          -- A parent element there would have its like here.
          obtain ⟨helement', hmem'⟩ := (h.right.linked.parentElement?_eq_some_iff hfx).mp hparent'
          obtain ⟨parent, helement, rfl⟩ := h.surjective parent' helement'
          rw [h.elementChildren parent helement] at hmem'
          obtain ⟨y, hy, hyx⟩ := List.mem_map.mp hmem'
          obtain rfl := h.injective y x ((t.mem_elementChildren_iff parent y).mp hy).2 hx hyx
          rw [(h.left.linked.parentElement?_eq_some_iff hx).mpr ⟨helement, hy⟩] at hparent
          cases hparent

theorem elementSiblings {x : NodeId} (hx : t.isElement x = true) :
    t'.elementSiblings (f x) = (t.elementSiblings x).map f := by
  rw [Tree.elementSiblings, Tree.elementSiblings, h.parentElement? hx]
  cases hparent : t.parentElement? x with
  | none => rfl
  | some parent =>
      exact h.elementChildren parent ((h.left.linked.parentElement?_eq_some_iff hx).mp hparent).1

/-- An element and its like have the same number among their siblings. -/
theorem elementIndex? {x : NodeId} (hx : t.isElement x = true) :
    t'.elementIndex? (f x) = t.elementIndex? x := by
  -- The document element is counted too: it is the only child of the document node.
  have hsiblings : t'.inclusiveSiblings (f x) = (t.inclusiveSiblings x).map f := by
    rw [h.right.inclusiveSiblings_eq (h.isElement x hx), h.left.inclusiveSiblings_eq hx,
      h.parentElement? hx, h.elementSiblings hx]
    cases t.parentElement? x <;> rfl
  rw [Tree.elementIndex?, Tree.elementIndex?, hsiblings, idxOf?_map]
  intro y hy hyx
  obtain ⟨parent, -, hmem⟩ := (t.mem_inclusiveSiblings_iff x y).mp hy
  exact h.injective y x ((t.mem_elementChildren_iff parent y).mp hmem).2 hx hyx

theorem documentElement?_beq {x : NodeId} (hx : t.isElement x = true) :
    (t'.documentElement? == some (f x)) = (t.documentElement? == some x) := by
  obtain ⟨top, hchildren, htop⟩ := h.left.exists_top
  have helement : t.isElement top = true := by
    have hmem : top ∈ t.elementChildren root := List.mem_of_head? htop
    exact ((t.mem_elementChildren_iff root top).mp hmem).2
  rw [h.documentElement?, htop, Option.map_some, Bool.eq_iff_iff, beq_iff_eq, beq_iff_eq,
    Option.some_inj, Option.some_inj]
  exact ⟨h.injective top x helement hx, congrArg f⟩

/-- The elements of the one document are those of the other, in some order. -/
theorem perm_elements : (t.elements.map f).Perm t'.elements := by
  -- Without repetitions in either list, members are all that counts.
  have hnodup : (t.elements.map f).Nodup := by
    refine List.Nodup.map_on ?_ h.left.linked.nodup_elements
    intro x hx y hy hxy
    exact h.injective x y ((h.left.mem_elements_iff x).mp hx)
      ((h.left.mem_elements_iff y).mp hy) hxy
  rw [List.perm_ext_iff_of_nodup hnodup h.right.linked.nodup_elements]
  intro y
  rw [h.right.mem_elements_iff, List.mem_map]
  constructor
  · rintro ⟨x, hx, rfl⟩
    exact h.isElement x ((h.left.mem_elements_iff x).mp hx)
  · intro hy
    obtain ⟨x, hx, hfx⟩ := h.surjective y hy
    exact ⟨x, h.left.mem_elements hx, hfx⟩

end TwinDocuments

end Tree

end UniqueSelector
