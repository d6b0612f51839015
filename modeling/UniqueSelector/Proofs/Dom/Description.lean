/-
  UniqueSelector.Proofs.Dom.Description

  What a JSON value says about a document, said of the value and not of the way it
  is read. A string stands for a text. An object stands for an element: by the one
  member for its tag name, and by at most one each for its attributes and for its
  content. The members of the attributes are a map, in which a name has the value
  that it was given last.

    * `Attributes.get?_ofList` — the last value of a name counts.
    * `Json.StandsFor` — the value says what the sketch says.
    * `Sketch.membersOf?_eq_some_iff` — what is met among the members of an object.
    * `Sketch.ofJson?_eq_element_iff` — what reads as an element.
    * `Sketch.standsFor_of_ofJson?`, `Sketch.exists_ofJson?` — what is read is what
      the value stands for, and a value that stands for something is read.

  Both directions run along the sketch, so that each is one mutual recursion over
  it and its content.
-/

import UniqueSelector.Dom.Document
import Mathlib.Data.List.Induction
import Mathlib.Tactic.MkIffOfInductiveProp

namespace UniqueSelector

/-! ## Attributes -/

/-- In a list of pairs the last value of a name counts. -/
theorem Attributes.get?_ofList (pairs : List (String × String)) (name : String) :
    (ofList pairs).get? name = pairs.reverse.lookup name := by
  induction pairs using List.reverseRecOn with
  | nil => rfl
  | append_singleton pairs pair ih =>
      have hset : ofList (pairs ++ [pair]) = (ofList pairs).set pair.1 pair.2 := by
        rw [ofList, List.foldl_append]
        rfl
      rw [hset, get?_set, List.reverse_append, List.reverse_singleton, List.singleton_append,
        List.lookup_cons, ih]
      by_cases hname : name = pair.1
      · rw [if_pos hname, hname, beq_self_eq_true]
      · rw [if_neg hname, beq_eq_false_iff_ne.mpr hname]

/-! ## What a value stands for -/

namespace Json

/-- The values of the members with a name. -/
def valuesOf (name : String) (members : List (String × Json)) : List Json :=
  (members.filter (·.1 == name)).map Prod.snd

/-- A name and a text, as a member of an object. -/
def textMember (pair : String × String) : String × Json :=
  (pair.1, .text pair.2)

mutual

/-- The value says what the sketch says. No value says a comment. Of an element the tag name must
    be given, and what is left out of the rest is empty; nothing is given twice. An attribute has
    the last value that its name is given. -/
def StandsFor : Json → Sketch → Prop
  | v, .text s => v = .text s
  | _, .comment _ => False
  | v, .element data content => ∃ members pairs items, v = .object members ∧
      valuesOf "tag" members = [.text data.tag] ∧
      (valuesOf "attrs" members = [.object (pairs.map textMember)] ∨
        valuesOf "attrs" members = [] ∧ pairs = []) ∧
      (∀ name, data.attribute? name = pairs.reverse.lookup name) ∧
      (valuesOf "children" members = [.array items] ∨
        valuesOf "children" members = [] ∧ items = []) ∧
      AllStandFor items content

/-- The values say what the sketches say, one by one. -/
def AllStandFor : List Json → List Sketch → Prop
  | items, [] => items = []
  | items, s :: rest => ∃ item others, items = item :: others ∧ StandsFor item s ∧
      AllStandFor others rest

end

theorem valuesOf_cons_self (name : String) (v : Json) (members : List (String × Json)) :
    valuesOf name ((name, v) :: members) = v :: valuesOf name members := by
  simp [valuesOf]

theorem valuesOf_cons_of_ne {name other : String} (h : other ≠ name) (v : Json)
    (members : List (String × Json)) :
    valuesOf name ((other, v) :: members) = valuesOf name members := by
  simp [valuesOf, h]

end Json

/-! ## Reading the members of an object -/

namespace Sketch

open Json

/-- The members of an object have been read: each of the three that matter stands there once where
    it was met, and not at all where it was not. -/
@[mk_iff]
structure Collects (members : List (String × Json)) (m : Members) : Prop where
  tag : (valuesOf "tag" members).mapM textOf? = some m.tag?.toList
  attributes : (valuesOf "attrs" members).mapM attributesOf? = some m.attributes?.toList
  content : (valuesOf "children" members).mapM contentOf? = some m.content?.toList

section Slots

variable {α : Type} {f : Json → Option α} {x? : Option α}

/-- The first value is what is met, and no other follows. -/
theorem mapM_cons_eq_toList_iff {v : Json} {vs : List Json} :
    (v :: vs).mapM f = some x?.toList ↔
      (∃ x, f v = some x ∧ x? = some x) ∧ vs.mapM f = some [] := by
  rw [List.mapM_cons]
  cases f v with
  | none => simp
  | some x => cases x? <;> cases vs.mapM f <;> simp [eq_comm]

theorem mapM_eq_nil_iff {vs : List Json} : vs.mapM f = some [] ↔ vs = [] := by
  cases vs with
  | nil => simp
  | cons v vs =>
      rw [List.mapM_cons]
      cases f v <;> cases vs.mapM f <;> simp

theorem mapM_eq_singleton_iff {vs : List Json} {x : α} :
    vs.mapM f = some [x] ↔ ∃ v, vs = [v] ∧ f v = some x := by
  cases vs with
  | nil => simp
  | cons v vs => simp [List.mapM_cons, Option.bind_eq_some_iff, mapM_eq_nil_iff, and_comm]

/-- What is met, or a default where nothing is. -/
theorem exists_getD_eq_iff {vs : List Json} {d x : α} :
    (∃ x? : Option α, vs.mapM f = some x?.toList ∧ x?.getD d = x) ↔
      (∃ v, vs = [v] ∧ f v = some x) ∨ vs = [] ∧ x = d := by
  constructor
  · rintro ⟨_ | _, hmet, rfl⟩
    · exact .inr ⟨mapM_eq_nil_iff.mp hmet, rfl⟩
    · exact .inl (mapM_eq_singleton_iff.mp hmet)
  · rintro (h | ⟨hvs, rfl⟩)
    · exact ⟨some x, mapM_eq_singleton_iff.mpr h, rfl⟩
    · exact ⟨none, mapM_eq_nil_iff.mpr hvs, rfl⟩

/-- A member that may be left out, where it stands for the same as an empty one. -/
theorem exists_met_iff {β : Type} {wrap : β → Json} {empty : β} {Reads : β → α → Prop} {d x : α}
    (hread : ∀ v x, f v = some x ↔ ∃ raw, v = wrap raw ∧ Reads raw x)
    (hempty : ∀ x, Reads empty x ↔ x = d) {vs : List Json} :
    (∃ x? : Option α, vs.mapM f = some x?.toList ∧ x?.getD d = x) ↔
      ∃ raw, (vs = [wrap raw] ∨ vs = [] ∧ raw = empty) ∧ Reads raw x := by
  rw [exists_getD_eq_iff]
  constructor
  · rintro (⟨v, hvs, hv⟩ | ⟨hvs, rfl⟩)
    · obtain ⟨raw, rfl, hraw⟩ := (hread v x).mp hv
      exact ⟨raw, .inl hvs, hraw⟩
    · exact ⟨empty, .inr ⟨hvs, rfl⟩, (hempty _).mpr rfl⟩
  · rintro ⟨raw, hvs | ⟨hvs, rfl⟩, hraw⟩
    · exact .inl ⟨_, hvs, (hread _ _).mpr ⟨raw, rfl, hraw⟩⟩
    · exact .inr ⟨hvs, (hempty _).mp hraw⟩

end Slots

section Members

variable {m m' : Members} {v : Json} {members : List (String × Json)}

theorem withTag_eq_some_iff {tag : String} :
    m.withTag tag = some m' ↔ m = { m' with tag? := none } ∧ m'.tag? = some tag := by
  obtain ⟨tag?, attributes?, content?⟩ := m
  obtain ⟨tag?', attributes?', content?'⟩ := m'
  cases tag? <;> simp [Members.withTag, and_assoc, and_comm, eq_comm]

theorem withAttributes_eq_some_iff {attributes : Attributes} :
    m.withAttributes attributes = some m' ↔
      m = { m' with attributes? := none } ∧ m'.attributes? = some attributes := by
  obtain ⟨tag?, attributes?, content?⟩ := m
  obtain ⟨tag?', attributes?', content?'⟩ := m'
  cases attributes? <;> simp [Members.withAttributes, and_assoc, and_comm, eq_comm]

theorem withContent_eq_some_iff {content : List Sketch} :
    m.withContent content = some m' ↔
      m = { m' with content? := none } ∧ m'.content? = some content := by
  obtain ⟨tag?, attributes?, content?⟩ := m
  obtain ⟨tag?', attributes?', content?'⟩ := m'
  cases content? <;> simp [Members.withContent, and_assoc, and_comm, eq_comm]

theorem collects_nil : Collects [] m ↔ m = {} := by
  obtain ⟨tag?, attributes?, content?⟩ := m
  rw [collects_iff]
  cases tag? <;> cases attributes? <;> cases content? <;> simp [valuesOf]

-- A member that matters is met once: those behind it are met without it.

theorem collects_tag : Collects (("tag", v) :: members) m ↔
    (∃ tag, textOf? v = some tag ∧ m.tag? = some tag) ∧
      Collects members { m with tag? := none } := by
  rw [collects_iff, collects_iff, valuesOf_cons_self, mapM_cons_eq_toList_iff,
    valuesOf_cons_of_ne (by decide), valuesOf_cons_of_ne (by decide), and_assoc]
  rfl

theorem collects_attributes : Collects (("attrs", v) :: members) m ↔
    (∃ attributes, attributesOf? v = some attributes ∧ m.attributes? = some attributes) ∧
      Collects members { m with attributes? := none } := by
  rw [collects_iff, collects_iff, valuesOf_cons_self, mapM_cons_eq_toList_iff,
    valuesOf_cons_of_ne (by decide), valuesOf_cons_of_ne (by decide), and_assoc, and_left_comm]
  rfl

theorem collects_content : Collects (("children", v) :: members) m ↔
    (∃ content, contentOf? v = some content ∧ m.content? = some content) ∧
      Collects members { m with content? := none } := by
  rw [collects_iff, collects_iff, valuesOf_cons_self, mapM_cons_eq_toList_iff,
    valuesOf_cons_of_ne (by decide), valuesOf_cons_of_ne (by decide), and_left_comm (b := ∃ _, _),
    and_left_comm]
  rfl

theorem collects_other {name : String} (htag : name ≠ "tag") (hattributes : name ≠ "attrs")
    (hcontent : name ≠ "children") : Collects ((name, v) :: members) m ↔ Collects members m := by
  rw [collects_iff, collects_iff, valuesOf_cons_of_ne htag, valuesOf_cons_of_ne hattributes,
    valuesOf_cons_of_ne hcontent]

/-- A step puts what it reads to the members that it has met before. -/
theorem exists_bind_put_iff {α : Type} {x? met? : Option α} {put : Members → α → Option Members}
    {before : Members} {P : Members → Prop}
    (hput : ∀ m' x, put m' x = some m ↔ m' = before ∧ met? = some x) :
    (∃ m', P m' ∧ x?.bind (put m') = some m) ↔
      (∃ x, x? = some x ∧ met? = some x) ∧ P before := by
  simp only [Option.bind_eq_some_iff, hput]
  constructor
  · rintro ⟨_, hbefore, x, hx, rfl, hmet⟩
    exact ⟨⟨x, hx, hmet⟩, hbefore⟩
  · rintro ⟨⟨x, hx, hmet⟩, hbefore⟩
    exact ⟨before, hbefore, x, hx, rfl, hmet⟩

theorem membersOf?_eq_some_iff : membersOf? members = some m ↔ Collects members m := by
  induction members generalizing m with
  | nil => rw [membersOf?, collects_nil, Option.some_inj, eq_comm]
  | cons member rest ih =>
      obtain ⟨name, v⟩ := member
      rw [membersOf?, Option.bind_eq_some_iff]
      simp only [ih]
      by_cases htag : name = "tag"
      · subst htag
        rw [collects_tag]
        exact exists_bind_put_iff fun _ _ => withTag_eq_some_iff
      simp only [beq_eq_false_iff_ne.mpr htag, Bool.false_eq_true, if_false]
      by_cases hattributes : name = "attrs"
      · subst hattributes
        rw [collects_attributes]
        exact exists_bind_put_iff fun _ _ => withAttributes_eq_some_iff
      simp only [beq_eq_false_iff_ne.mpr hattributes, Bool.false_eq_true, if_false]
      by_cases hcontent : name = "children"
      · subst hcontent
        rw [collects_content]
        exact exists_bind_put_iff fun _ _ => withContent_eq_some_iff
      · rw [collects_other htag hattributes hcontent]
        simp [hcontent]

end Members

/-! ## Reading a value -/

section Values

variable {v : Json}

theorem textOf?_eq_some_iff {s : String} : textOf? v = some s ↔ v = .text s := by
  cases v <;> simp [textOf?]

theorem mapM_textOf?_eq_singleton_iff {vs : List Json} {s : String} :
    vs.mapM textOf? = some [s] ↔ vs = [.text s] := by
  simp [mapM_eq_singleton_iff, textOf?_eq_some_iff]

theorem attributeOf?_eq_some_iff {member : String × Json} {pair : String × String} :
    attributeOf? member = some pair ↔ member = textMember pair := by
  obtain ⟨name, value⟩ := member
  obtain ⟨name', s⟩ := pair
  simp [attributeOf?, textMember, textOf?_eq_some_iff, and_comm]

theorem mapM_attributeOf?_eq_some_iff {members : List (String × Json)}
    {pairs : List (String × String)} :
    members.mapM attributeOf? = some pairs ↔ members = pairs.map textMember := by
  induction members generalizing pairs with
  | nil => cases pairs <;> simp
  | cons member rest ih =>
      rw [List.mapM_cons]
      cases pairs <;> simp [Option.bind_eq_some_iff, attributeOf?_eq_some_iff, ih]

theorem attributesOf?_eq_some_iff {attributes : Attributes} :
    attributesOf? v = some attributes ↔
      ∃ pairs, v = .object (pairs.map textMember) ∧ attributes = Attributes.ofList pairs := by
  cases v with
  | object members => simp [attributesOf?, mapM_attributeOf?_eq_some_iff, eq_comm]
  | _ => simp [attributesOf?]

theorem contentOf?_eq_some_iff {content : List Sketch} :
    contentOf? v = some content ↔ ∃ items, v = .array items ∧ ofItems? items = some content := by
  cases v <;> simp [contentOf?]

theorem exists_attributes_iff {vs : List Json} {attributes : Attributes} :
    (∃ met? : Option Attributes,
        vs.mapM attributesOf? = some met?.toList ∧ met?.getD {} = attributes) ↔
      ∃ pairs, (vs = [.object (pairs.map textMember)] ∨ vs = [] ∧ pairs = []) ∧
        attributes = Attributes.ofList pairs := by
  -- An empty list of pairs makes no attributes.
  have hempty : ∀ as : Attributes, as = Attributes.ofList [] ↔ as = {} := fun _ => Iff.rfl
  exact exists_met_iff (fun _ _ => attributesOf?_eq_some_iff) hempty

theorem ofItems?_nil_eq_some_iff {content : List Sketch} :
    ofItems? [] = some content ↔ content = [] := by
  rw [ofItems?, Option.some_inj, eq_comm]

theorem exists_content_iff {vs : List Json} {content : List Sketch} :
    (∃ met? : Option (List Sketch),
        vs.mapM contentOf? = some met?.toList ∧ met?.getD [] = content) ↔
      ∃ items, (vs = [.array items] ∨ vs = [] ∧ items = []) ∧ ofItems? items = some content :=
  exists_met_iff (fun _ _ => contentOf?_eq_some_iff) fun _ => ofItems?_nil_eq_some_iff

theorem ofItems?_eq_nil_iff {items : List Json} : ofItems? items = some [] ↔ items = [] := by
  cases items with
  | nil => simp [ofItems?]
  | cons item others => simp [ofItems?, Option.bind_eq_some_iff]

theorem ofItems?_eq_cons_iff {items : List Json} {s : Sketch} {rest : List Sketch} :
    ofItems? items = some (s :: rest) ↔
      ∃ item others, items = item :: others ∧ ofJson? item = some s ∧
        ofItems? others = some rest := by
  cases items with
  | nil => simp [ofItems?]
  | cons item others => simp [ofItems?, Option.bind_eq_some_iff]

theorem element?_eq_some_iff {m : Members} {data : Element} {content : List Sketch} :
    m.element? = some (.element data content) ↔ m.tag? = some data.tag ∧
      m.attributes?.getD {} = data.attributes ∧ m.content?.getD [] = content := by
  obtain ⟨tag, attributes⟩ := data
  simp [Members.element?, and_assoc]

/-- The members of an element, read one by one. -/
theorem ofJson?_object_iff {members : List (String × Json)} {data : Element}
    {content : List Sketch} :
    ofJson? (.object members) = some (.element data content) ↔
      (valuesOf "tag" members).mapM textOf? = some [data.tag] ∧
      (∃ met? : Option Attributes,
        (valuesOf "attrs" members).mapM attributesOf? = some met?.toList ∧
          met?.getD {} = data.attributes) ∧
      (∃ met? : Option (List Sketch),
        (valuesOf "children" members).mapM contentOf? = some met?.toList ∧
          met?.getD [] = content) := by
  rw [ofJson?, Option.bind_eq_some_iff]
  simp only [membersOf?_eq_some_iff, element?_eq_some_iff]
  constructor
  · rintro ⟨m, h, htag, hattributes, hcontent⟩
    have hmet := h.tag
    rw [htag] at hmet
    exact ⟨hmet, ⟨_, h.attributes, hattributes⟩, ⟨_, h.content, hcontent⟩⟩
  · rintro ⟨htag, ⟨attributes?, hattributes, hdata⟩, ⟨content?, hmet, hcontent⟩⟩
    exact ⟨⟨some data.tag, attributes?, content?⟩, ⟨htag, hattributes, hmet⟩, rfl, hdata, hcontent⟩

theorem ofJson?_eq_text_iff {s : String} : ofJson? v = some (.text s) ↔ v = .text s := by
  cases v <;> simp [ofJson?, Members.element?, Option.bind_eq_some_iff]

theorem ofJson?_ne_comment {s : String} : ofJson? v ≠ some (.comment s) := by
  cases v <;> simp [ofJson?, Members.element?, Option.bind_eq_some_iff]

/-- What reads as an element. -/
theorem ofJson?_eq_element_iff {data : Element} {content : List Sketch} :
    ofJson? v = some (.element data content) ↔ ∃ members pairs items, v = .object members ∧
      valuesOf "tag" members = [.text data.tag] ∧
      (valuesOf "attrs" members = [.object (pairs.map textMember)] ∨
        valuesOf "attrs" members = [] ∧ pairs = []) ∧
      data.attributes = Attributes.ofList pairs ∧
      (valuesOf "children" members = [.array items] ∨
        valuesOf "children" members = [] ∧ items = []) ∧
      ofItems? items = some content := by
  cases v with
  | object members =>
      rw [ofJson?_object_iff, mapM_textOf?_eq_singleton_iff, exists_attributes_iff,
        exists_content_iff]
      constructor
      · rintro ⟨htag, ⟨pairs, hattrs, hpairs⟩, items, hitems, hcontent⟩
        exact ⟨members, pairs, items, rfl, htag, hattrs, hpairs, hitems, hcontent⟩
      · rintro ⟨_, pairs, items, h, htag, hattrs, hpairs, hitems, hcontent⟩
        cases h
        exact ⟨htag, ⟨pairs, hattrs, hpairs⟩, items, hitems, hcontent⟩
  | _ => simp [ofJson?]

end Values

mutual

/-- What is read is what the value stands for. -/
theorem standsFor_of_ofJson? {v : Json} : ∀ {s : Sketch}, ofJson? v = some s → v.StandsFor s
  | .text s, h => by
      rw [StandsFor]
      exact ofJson?_eq_text_iff.mp h
  | .comment s, h => absurd h ofJson?_ne_comment
  | .element data content, h => by
      obtain ⟨members, pairs, items, hv, htag, hattrs, hdata, hitems, hcontent⟩ :=
        ofJson?_eq_element_iff.mp h
      rw [StandsFor]
      refine ⟨members, pairs, items, hv, htag, hattrs, fun name => ?_, hitems,
        allStandFor_of_ofItems? hcontent⟩
      rw [Element.attribute?, hdata, Attributes.get?_ofList]

theorem allStandFor_of_ofItems? {items : List Json} :
    ∀ {content : List Sketch}, ofItems? items = some content → AllStandFor items content
  | [], h => by
      rw [AllStandFor]
      exact ofItems?_eq_nil_iff.mp h
  | s :: rest, h => by
      obtain ⟨item, others, hitems, hitem, hothers⟩ := ofItems?_eq_cons_iff.mp h
      rw [AllStandFor]
      exact ⟨item, others, hitems, standsFor_of_ofJson? hitem, allStandFor_of_ofItems? hothers⟩

end

mutual

/-- What stands for something is read. -/
theorem exists_ofJson? {v : Json} :
    ∀ {s : Sketch}, v.StandsFor s → ∃ s', ofJson? v = some s' ∧ s'.isElement = s.isElement
  | .text s, h => by
      rw [StandsFor] at h
      exact ⟨.text s, ofJson?_eq_text_iff.mpr h, rfl⟩
  | .comment s, h => by
      rw [StandsFor] at h
      cases h
  | .element data content, h => by
      rw [StandsFor] at h
      obtain ⟨members, pairs, items, hv, htag, hattrs, -, hitems, hcontent⟩ := h
      obtain ⟨content', hcontent'⟩ := exists_ofItems? hcontent
      refine ⟨.element ⟨data.tag, Attributes.ofList pairs⟩ content', ?_, rfl⟩
      exact ofJson?_eq_element_iff.mpr
        ⟨members, pairs, items, hv, htag, hattrs, rfl, hitems, hcontent'⟩

theorem exists_ofItems? {items : List Json} :
    ∀ {content : List Sketch}, AllStandFor items content →
      ∃ content', ofItems? items = some content'
  | [], h => by
      rw [AllStandFor] at h
      exact ⟨[], ofItems?_eq_nil_iff.mpr h⟩
  | s :: rest, h => by
      rw [AllStandFor] at h
      obtain ⟨item, others, hitems, hitem, hothers⟩ := h
      obtain ⟨s', hs', -⟩ := exists_ofJson? hitem
      obtain ⟨rest', hrest'⟩ := exists_ofItems? hothers
      exact ⟨s' :: rest', ofItems?_eq_cons_iff.mpr ⟨item, others, hitems, hs', hrest'⟩⟩

end

end Sketch

end UniqueSelector
