/-
  UniqueSelector.Proofs.Synthesis.Features

  What the description of an element says of it. However many features it takes,
  the text reads back as one compound: at most one type selector, in front, then
  conditions that hold of the element.

    * `PointsTo` — the attribute that links an element to a target.
    * `Profile.Tells` — the conditions that features can name, each with the
      attribute or class it is taken from; `Profile.Tells.holds`.
    * `Feature.conditions`, `Profile.compoundOf` — the conditions of one feature,
      and the compound of several.
    * `Profile.Says` — the texts of such conditions, with or without the type.
    * `Profile.taken`, `Profile.gather_eq` — the features that a budget is spent on.
    * `Profile.says_describe` — the run lemma; one step takes one more feature
      (`Profile.says_place`).

  Only one of the features speaks of the tag (`Profile.tagFeature`), and so the
  type is put in front once at most.
-/

import UniqueSelector.Proofs.Dom.Data
import UniqueSelector.Proofs.Selector.Conditions
import UniqueSelector.Proofs.Uri.Percent
import UniqueSelector.Proofs.Uri.Suffix
import UniqueSelector.Selector.Matching
import UniqueSelector.Synthesis.Feature

namespace UniqueSelector

open Text Identifier Selector

/-! ## Conditions that features name -/

theorem Tree.hasClass_of_mem_distinctClasses {t : Tree} {id : NodeId} {e : Element} {name : String}
    (h : name ∈ t.distinctClasses id e) : e.hasClass name = true := by
  rw [Tree.distinctClasses, List.mem_filter, List.mem_filter] at h
  exact (e.mem_classes_iff name).mp h.1.1

namespace Synthesis

/-- The attribute that links an element to a target. A `src` counts only where there is no
    `href`. -/
inductive PointsTo (e : Element) : (name target : String) → Prop
  | href {target : String} (h : e.attribute? "href" = some target) : PointsTo e "href" target
  | src {target : String} (hhref : e.attribute? "href" = none)
      (h : e.attribute? "src" = some target) : PointsTo e "src" target

theorem PointsTo.name_mem {e : Element} {name target : String} (h : PointsTo e name target) :
    name ∈ ["href", "src"] := by
  cases h <;> decide

theorem PointsTo.attribute?_eq {e : Element} {name target : String} (h : PointsTo e name target) :
    e.attribute? name = some target := by
  cases h <;> assumption

theorem linkTarget?_eq_some_iff {e : Element} {name target : String} :
    linkTarget? e = some (name, target) ↔ PointsTo e name target := by
  rw [linkTarget?]
  constructor
  · intro h
    split at h
    · rename_i hhref
      cases h
      exact PointsTo.href hhref
    · rename_i hhref
      obtain ⟨src, hsrc, heq⟩ := Option.map_eq_some_iff.mp h
      cases heq
      exact PointsTo.src hhref hsrc
  · rintro (hhref | ⟨hhref, hsrc⟩)
    · rw [hhref]
    · rw [hhref, hsrc, Option.map_some]

namespace Profile

/-- The conditions that features of an element can name, besides its tag name. -/
inductive Tells (p : Profile) : SimpleSelector → Prop
  | value {name value : String} (hname : name ∈ ["role", "type", "name"])
      (h : p.element.attribute? name = some value) :
      Tells p (.attribute { name, agreement? := some (.equals, value) })
  | «class» {name : String} (h : name ∈ p.distinctClasses) : Tells p (.className name)
  | link {name target suffix : String} (hname : name ∈ ["href", "src"])
      (h : p.element.attribute? name = some target)
      (hsuffix : Uri.friendlySuffix {} target = some suffix)
      (hends : endsWith target (Uri.encode suffix) = true) :
      Tells p (.attribute { name, agreement? := some (.finish, Uri.encode suffix) })

/-- `p` describes an element with the tag name `n` as selectors name it. -/
structure Describes (p : Profile) (n : String) : Prop where
  tag : p.tag.toList = nameText n
  nulFree : '\x00' ∉ n.toList
  classes : ∀ name ∈ p.distinctClasses, p.element.hasClass name = true

theorem describes_of_ofNode? {t : Tree} {id : NodeId} {p : Profile}
    (h : ofNode? t id = .ok (some p)) :
    t.element? id = some p.element ∧ p.Describes (p.element.selectorName t.markup) := by
  rw [ofNode?] at h
  split at h
  · cases h
  · rename_i e he
    cases htag : escape (e.selectorName t.markup) with
    | error cause =>
        rw [htag] at h
        cases h
    | ok tag =>
        rw [htag] at h
        cases h
        refine ⟨he, nameText_of_escape htag, (escape_isOk_iff _).mp ⟨tag, htag⟩, ?_⟩
        intro name hname
        exact Tree.hasClass_of_mem_distinctClasses hname

theorem holds_finish {e : Element} {name target suffix : String}
    (htarget : e.attribute? name = some target) (hne : suffix ≠ "")
    (hends : endsWith target suffix = true) :
    AttributeTest.holds { name, agreement? := some (.finish, suffix) } e = true := by
  rw [AttributeTest.holds]
  simp [htarget, AttributeOperator.agrees, hne, hends]

theorem Tells.holds {p : Profile} {n : String} (hp : p.Describes n) {x : SimpleSelector}
    (h : p.Tells x) (markup : Markup) : x.holds p.element markup = true := by
  cases h with
  | value hname hvalue =>
      rw [SimpleSelector.holds, AttributeTest.holds]
      simp [hvalue, AttributeOperator.agrees]
  | «class» hname => exact hp.classes _ hname
  | link hname htarget hsuffix hends =>
      exact holds_finish htarget (Uri.encode_ne_empty (Uri.friendlySuffix_ne_empty hsuffix)) hends

/-! ## The compound of some features -/

/-- The condition that an attribute has a value, where there is one. -/
def valueCondition (name : String) (value? : Option String) : Compound :=
  (value?.map fun value =>
    SimpleSelector.attribute { name, agreement? := some (.equals, value) }).toList

/-- The condition that a link ends as its friendly suffix does, where it has one. -/
def linkCondition (e : Element) : Compound :=
  ((linkTarget? e).bind fun link => (Uri.friendlySuffix {} link.2).map fun suffix =>
    SimpleSelector.attribute
      { name := link.1, agreement? := some (.finish, Uri.encode suffix) }).toList

end Profile

/-- The conditions that a feature names, where it gives a text, besides the tag name. -/
def Feature.conditions (p : Profile) : Feature → Compound
  | .customTag => []
  | .role => Profile.valueCondition "role" (p.element.attribute? "role")
  | .tellingTag =>
    if p.tag == "input" then Profile.valueCondition "type" (p.element.attribute? "type") else []
  | .name => Profile.valueCondition "name" (p.element.attribute? "name")
  | .classes => p.distinctClasses.map .className
  | .link => Profile.linkCondition p.element
  | .genericTag => []

namespace Profile

/-- The feature that speaks of the tag name. -/
def tagFeature (p : Profile) : Feature :=
  if p.isCustom then .customTag else if p.isGeneric then .genericTag else .tellingTag

/-- The compound of some features of an element with the tag name `n`: what the feature of the tag
    says in front, then what the others say in their order. -/
def compoundOf (p : Profile) (n : String) (features : List Feature) : Compound :=
  (if p.tagFeature ∈ features then .typeName n :: p.tagFeature.conditions p else []) ++
    (features.filter (· ≠ p.tagFeature)).flatMap (Feature.conditions p)

theorem compoundOf_tag (p : Profile) (n : String) :
    p.compoundOf n [p.tagFeature] = .typeName n :: p.tagFeature.conditions p := by
  simp [compoundOf]

theorem compoundOf_other {p : Profile} {f : Feature} (h : f ≠ p.tagFeature) (n : String) :
    p.compoundOf n [f] = f.conditions p := by
  simp [compoundOf, h, h.symm]

/-- The feature of the tag goes to the front. -/
theorem compoundOf_concat_tag {p : Profile} {features : List Feature}
    (h : p.tagFeature ∉ features) (n : String) :
    p.compoundOf n (features ++ [p.tagFeature]) =
      p.compoundOf n [p.tagFeature] ++ p.compoundOf n features := by
  simp [compoundOf, h]

/-- Any other feature goes to the end. -/
theorem compoundOf_concat_other {p : Profile} {f : Feature} (h : f ≠ p.tagFeature) (n : String)
    (features : List Feature) :
    p.compoundOf n (features ++ [f]) = p.compoundOf n features ++ p.compoundOf n [f] := by
  simp [compoundOf, h, h.symm]

/-! ## What is written -/

theorem exists_of_attributeFragment {name value text : String}
    (h : attributeFragment name value = .ok text) :
    ∃ escaped, escape value = .ok escaped ∧ text = "[" ++ name ++ "=\"" ++ escaped ++ "\"]" := by
  rw [attributeFragment] at h
  obtain ⟨escaped, hescape, hpure⟩ := bind_eq_ok h
  exact ⟨escaped, hescape, (Except.ok.inj hpure).symm⟩

theorem exists_of_attributeFragment? {name text : String} {value? : Option String}
    (h : attributeFragment? name value? = .ok (some text)) :
    ∃ value, value? = some value ∧ attributeFragment name value = .ok text := by
  cases value? with
  | none => cases h
  | some value =>
      obtain ⟨fragment, hfragment, hsome⟩ := map_eq_ok h
      rw [Option.some.inj hsome] at hfragment
      exact ⟨value, rfl, hfragment⟩

theorem exists_of_classFragment_cons {name text : String} {rest : List String}
    (h : classFragment (name :: rest) = .ok text) :
    ∃ escaped others, escape name = .ok escaped ∧ classFragment rest = .ok others ∧
      text = "." ++ escaped ++ others := by
  rw [classFragment] at h
  obtain ⟨escaped, hescape, hrest⟩ := bind_eq_ok h
  obtain ⟨others, hothers, hpure⟩ := bind_eq_ok hrest
  exact ⟨escaped, others, hescape, hothers, (Except.ok.inj hpure).symm⟩

/-! ## Texts of features -/

/-- The text is read as conditions that features name, behind the tag name `n` where `typed`. -/
inductive Says (p : Profile) (n : String) : Bool → List Char → Compound → Prop
  | conditions {text : List Char} {xs : Compound} (h : SimplesText text xs)
      (htells : ∀ x ∈ xs, p.Tells x) : Says p n false text xs
  | typed {text : List Char} {xs : Compound} (hn : IsName n) (h : SimplesText text xs)
      (htells : ∀ x ∈ xs, p.Tells x) : Says p n true (nameText n ++ text) (.typeName n :: xs)

theorem Says.append {p : Profile} {n : String} {typed : Bool} {text text' : List Char}
    {c xs : Compound} (h : p.Says n typed text c) (h' : SimplesText text' xs)
    (htells : ∀ x ∈ xs, p.Tells x) : p.Says n typed (text ++ text') (c ++ xs) := by
  cases h with
  | conditions hc hctells =>
      refine Says.conditions (hc.append h') fun x hx => ?_
      exact (List.mem_append.mp hx).elim (hctells x) (htells x)
  | typed hn hc hctells =>
      rw [List.append_assoc]
      refine Says.typed hn (hc.append h') fun x hx => ?_
      exact (List.mem_append.mp hx).elim (hctells x) (htells x)

theorem Says.compoundText {p : Profile} {n : String} {typed : Bool} {text : List Char}
    {c : Compound} (h : p.Says n typed text c) (hne : text ≠ []) : CompoundText text c := by
  cases h with
  | typed hn hc htells => exact CompoundText.typed hn hc
  | conditions hc htells =>
      refine CompoundText.plain hc ?_
      rintro rfl
      cases hc
      exact hne rfl

theorem simpleText_attribute (operator : AttributeOperator) {name value : String}
    {text : List Char} (hname : IsName name) (hself : nameText name = name.toList)
    (hvalue : ValueText text value) :
    SimpleText ('[' :: (name.toList ++ (operator.text ++ (text ++ [']']))))
      (.attribute { name, agreement? := some (operator, value) }) := by
  have h : SimpleText (agreesText [] name [] operator [] text []) _ :=
    simpleText_agrees blanks_nil hname blanks_nil blanks_nil hvalue blanks_nil
  rw [agreesText, hself] at h
  exact h

theorem simpleText_of_attributeFragment {name value text : String} (hname : IsName name)
    (hself : nameText name = name.toList) (h : attributeFragment name value = .ok text) :
    SimpleText text.toList (.attribute { name, agreement? := some (.equals, value) }) := by
  obtain ⟨escaped, hescape, rfl⟩ := exists_of_attributeFragment h
  have hnul := (escape_isOk_iff value).mp ⟨escaped, hescape⟩
  have hquoted := valueText_quoted (Or.inl rfl) hnul
  have hsimple := simpleText_attribute .equals hname hself hquoted
  rw [← nameText_of_escape hescape] at hsimple
  simpa [String.toList_append, AttributeOperator.text] using hsimple

theorem linkFragment?_eq_some_iff {e : Element} {text : String} :
    linkFragment? e = some text ↔ ∃ name target suffix, PointsTo e name target ∧
      Uri.friendlySuffix {} target = some suffix ∧ endsWith target (Uri.encode suffix) = true ∧
        text = "[" ++ name ++ "$=\"" ++ Uri.encode suffix ++ "\"]" := by
  simp only [linkFragment?, Option.bind_eq_bind, Option.bind_eq_some_iff]
  constructor
  · rintro ⟨⟨name, target⟩, htarget, suffix, hsuffix, hends⟩
    split at hends
    · rename_i hend
      exact ⟨name, target, suffix, linkTarget?_eq_some_iff.mp htarget, hsuffix, hend,
        (Option.some.inj hends).symm⟩
    · cases hends
  · rintro ⟨name, target, suffix, hpoints, hsuffix, hend, rfl⟩
    exact ⟨(name, target), linkTarget?_eq_some_iff.mpr hpoints, suffix, hsuffix, if_pos hend⟩

/-- The percent-encoded end stands between the quotes as it is. -/
theorem simpleText_of_pointsTo {e : Element} {name target : String} (h : PointsTo e name target)
    (suffix : String) :
    SimpleText ("[" ++ name ++ "$=\"" ++ Uri.encode suffix ++ "\"]").toList
      (.attribute { name, agreement? := some (.finish, Uri.encode suffix) }) := by
  have hself : IsName name ∧ nameText name = name.toList := by
    cases h <;> exact ⟨⟨by decide, by decide⟩, by decide⟩
  have hvalue : ValueText ('"' :: ((Uri.encode suffix).toList ++ ['"'])) (Uri.encode suffix) :=
    valueText_plain (Or.inl rfl) fun c hc => Uri.isQuotable_of_mem_encode hc
  have hsimple := simpleText_attribute .finish hself.1 hself.2 hvalue
  simpa [String.toList_append, AttributeOperator.text] using hsimple

theorem simplesText_of_classFragment {names : List String} {text : String}
    (hnames : ∀ name ∈ names, name ≠ "") (h : classFragment names = .ok text) :
    SimplesText text.toList (names.map .className) := by
  induction names generalizing text with
  | nil =>
      cases h
      exact SimplesText.nil
  | cons name rest ih =>
      obtain ⟨escaped, others, hescape, hrest, rfl⟩ := exists_of_classFragment_cons h
      have hnul := (escape_isOk_iff name).mp ⟨escaped, hescape⟩
      have hfirst := simpleText_className ⟨hnames name List.mem_cons_self, hnul⟩
      have hothers := ih (fun m hm => hnames m (List.mem_cons_of_mem _ hm)) hrest
      have hboth := SimplesText.cons hfirst hothers
      rw [← nameText_of_escape hescape] at hboth
      simpa [String.toList_append] using hboth

/-! ## One feature -/

theorem tagFeature_mem (p : Profile) :
    p.tagFeature ∈ [Feature.customTag, Feature.genericTag, Feature.tellingTag] := by
  rw [tagFeature]
  split
  · simp
  · split <;> simp

theorem isCustom_of_isGeneric {p : Profile} (h : p.isGeneric = true) : p.isCustom = false := by
  have hall : ∀ tag ∈ genericTags, tag.toList.contains '-' = false := by decide
  rw [isGeneric, isGenericTag, List.contains_iff_mem] at h
  exact hall p.tag h

theorem says_tag {p : Profile} {n : String} (hp : p.Describes n) (hne : p.tag ≠ "") :
    p.Says n true p.tag.toList [.typeName n] := by
  have hn : n ≠ "" := by
    rintro rfl
    have hempty : p.tag.toList = [] := hp.tag
    exact hne (String.toList_eq_nil_iff.mp hempty)
  have h : p.Says n true (nameText n ++ []) [.typeName n] :=
    Says.typed ⟨hn, hp.nulFree⟩ SimplesText.nil (fun x hx => nomatch hx)
  rw [List.append_nil, ← hp.tag] at h
  exact h

theorem says_attributeFragment? {p : Profile} (n : String) {name text : String}
    {value? : Option String} (hname : name ∈ ["role", "type", "name"])
    (hvalue? : ∀ value, value? = some value → p.element.attribute? name = some value)
    (h : attributeFragment? name value? = .ok (some text)) :
    p.Says n false text.toList (valueCondition name (p.element.attribute? name)) := by
  obtain ⟨value, hvalue, hfragment⟩ := exists_of_attributeFragment? h
  have hself : IsName name ∧ nameText name = name.toList := by
    simp only [List.mem_cons, List.not_mem_nil, or_false] at hname
    rcases hname with rfl | rfl | rfl <;> exact ⟨⟨by decide, by decide⟩, by decide⟩
  have hhas := hvalue? value hvalue
  rw [hhas, valueCondition, Option.map_some, Option.toList_some]
  refine Says.conditions
    (SimplesText.single (simpleText_of_attributeFragment hself.1 hself.2 hfragment)) ?_
  intro x hx
  rw [List.mem_singleton.mp hx]
  exact Tells.value hname hhas

theorem says_classes {p : Profile} {n text : String} (hp : p.Describes n)
    (h : (classFragment p.distinctClasses).map some = .ok (some text)) :
    p.Says n false text.toList (p.distinctClasses.map .className) := by
  obtain ⟨fragment, hfragment, hsome⟩ := map_eq_ok h
  rw [Option.some.inj hsome] at hfragment
  have hne : ∀ name ∈ p.distinctClasses, name ≠ "" :=
    fun name hname => Element.class_ne_empty (hp.classes name hname)
  refine Says.conditions (simplesText_of_classFragment hne hfragment) fun x hx => ?_
  obtain ⟨name, hname, rfl⟩ := List.mem_map.mp hx
  exact Tells.class hname

theorem says_link {p : Profile} (n : String) {text : String}
    (h : linkFragment? p.element = some text) :
    p.Says n false text.toList (linkCondition p.element) := by
  obtain ⟨name, target, suffix, hpoints, hsuffix, hends, rfl⟩ := linkFragment?_eq_some_iff.mp h
  rw [linkCondition, linkTarget?_eq_some_iff.mpr hpoints, Option.bind_some]
  dsimp only
  rw [hsuffix, Option.map_some, Option.toList_some]
  refine Says.conditions (SimplesText.single (simpleText_of_pointsTo hpoints suffix)) fun x hx => ?_
  rw [List.mem_singleton.mp hx]
  exact Tells.link hpoints.name_mem hpoints.attribute?_eq hsuffix hends

/-- The tag of an `input`, with its type where it has one. -/
theorem says_tellingTagFragment? {p : Profile} {n text : String} (hp : p.Describes n)
    (h : Feature.tellingTagFragment? p = .ok (some text)) (hne : text ≠ "") :
    p.tagFeature = .tellingTag ∧
      p.Says n true text.toList (.typeName n :: Feature.conditions p .tellingTag) := by
  rw [Feature.tellingTagFragment?] at h
  split at h
  · cases h
  · rename_i hkind
    simp only [Bool.or_eq_true, not_or, Bool.not_eq_true] at hkind
    refine ⟨by rw [tagFeature, hkind.1, hkind.2]; rfl, ?_⟩
    rw [Feature.conditions]
    split at h
    · rename_i hinput
      rw [if_pos hinput]
      have hinput : p.tag ≠ "" := by
        rw [eq_of_beq hinput]
        decide
      obtain ⟨type?, htype, hpure⟩ := bind_eq_ok h
      cases hpure
      rw [String.toList_append]
      cases type? with
      | none =>
          have hnone : p.element.attribute? "type" = none := by
            cases hvalue : p.element.attribute? "type" with
            | none => rfl
            | some value =>
                rw [hvalue, attributeFragment?] at htype
                obtain ⟨fragment, -, hsome⟩ := map_eq_ok htype
                cases hsome
          rw [hnone, Option.getD_none]
          simpa [valueCondition] using says_tag hp hinput
      | some fragment =>
          have htype := says_attributeFragment? n (by simp) (fun value hvalue => hvalue) htype
          cases htype with
          | conditions hxs htells => exact (says_tag hp hinput).append hxs htells
    · rename_i hinput
      rw [if_neg hinput]
      cases h
      exact says_tag hp hne

theorem says_of_tag {p : Profile} {n : String} {f : Feature} {text : List Char}
    (hf : f = p.tagFeature) (h : p.Says n true text (.typeName n :: f.conditions p)) :
    p.Says n (decide (f = p.tagFeature)) text (p.compoundOf n [f]) := by
  subst hf
  rw [decide_eq_true rfl, compoundOf_tag]
  exact h

theorem says_of_conditions {p : Profile} {n : String} {f : Feature} {text : List Char}
    (hf : f ∉ [Feature.customTag, Feature.genericTag, Feature.tellingTag])
    (h : p.Says n false text (f.conditions p)) :
    p.Says n (decide (f = p.tagFeature)) text (p.compoundOf n [f]) := by
  have hother : f ≠ p.tagFeature := by
    rintro rfl
    exact hf p.tagFeature_mem
  rw [decide_eq_false hother, compoundOf_other hother]
  exact h

/-- What a feature gives is read as conditions that it names, and as the tag name in front if
    it is the feature of the tag. -/
theorem says_fragment? {p : Profile} {n text : String} {f : Feature} (hp : p.Describes n)
    (h : f.fragment? p = .ok (some text)) (hne : text ≠ "") :
    p.Says n (decide (f = p.tagFeature)) text.toList (p.compoundOf n [f]) := by
  cases f with
  | customTag =>
      rw [Feature.fragment?] at h
      split at h
      · rename_i hcustom
        cases h
        apply says_of_tag
        · rw [tagFeature, if_pos hcustom]
        · exact says_tag hp hne
      · cases h
  | genericTag =>
      rw [Feature.fragment?] at h
      split at h
      · rename_i hgeneric
        cases h
        apply says_of_tag
        · rw [tagFeature, isCustom_of_isGeneric hgeneric, if_neg Bool.false_ne_true,
            if_pos hgeneric]
        · exact says_tag hp hne
      · cases h
  | tellingTag =>
      obtain ⟨hfeature, hsaid⟩ := says_tellingTagFragment? hp h hne
      exact says_of_tag hfeature.symm hsaid
  | role =>
      apply says_of_conditions (by decide)
      exact says_attributeFragment? n (by simp) (fun value hvalue => hvalue) h
  | name =>
      apply says_of_conditions (by decide)
      rw [Feature.fragment?] at h
      split at h
      · cases h
      · apply says_attributeFragment? n (by simp) _ h
        intro value hvalue
        exact (Option.filter_eq_some_iff.mp hvalue).1
  | classes =>
      apply says_of_conditions (by decide)
      rw [Feature.fragment?] at h
      split at h
      · exact says_classes hp h
      · cases h
  | link =>
      apply says_of_conditions (by decide)
      exact says_link n (Except.ok.inj h)

/-! ## The first features -/

/-- The feature gives no text, or the empty one. -/
def Silent (p : Profile) (f : Feature) : Prop :=
  f.fragment? p = .ok none ∨ f.fragment? p = .ok (some "")

theorem gather_silent {p : Profile} {f : Feature} (h : p.Silent f) (rest : List Feature)
    (budget : Nat) (fragments : List String) :
    p.gather (f :: rest) (budget + 1) fragments = p.gather rest (budget + 1) fragments := by
  rcases h with h | h
  all_goals
    rw [gather, h]
    rfl

theorem gather_some {p : Profile} {f : Feature} {text : String}
    (h : f.fragment? p = .ok (some text)) (hne : text ≠ "") (rest : List Feature) (budget : Nat)
    (fragments : List String) : p.gather (f :: rest) (budget + 1) fragments =
      p.gather rest budget (place fragments text) := by
  rw [gather, h]
  dsimp only [bind, Except.bind]
  split
  · rename_i heq
    cases heq
  · rename_i heq
    exact absurd (Option.some.inj heq) hne
  · rename_i heq
    rw [Option.some.inj heq]

theorem gather_error {p : Profile} {f : Feature} {cause : EscapeError}
    (h : f.fragment? p = .error cause) (rest : List Feature) (budget : Nat)
    (fragments : List String) : p.gather (f :: rest) (budget + 1) fragments = .error cause := by
  rw [gather, h]
  rfl

/-- What one feature does to the fragments, as long as there is a budget. -/
theorem gather_cases {p : Profile} {f : Feature} {rest : List Feature} {budget : Nat}
    {fragments result : List String}
    (h : p.gather (f :: rest) (budget + 1) fragments = .ok result) :
    (p.Silent f ∧ p.gather rest (budget + 1) fragments = .ok result) ∨
      ∃ text, f.fragment? p = .ok (some text) ∧ text ≠ "" ∧
        p.gather rest budget (place fragments text) = .ok result := by
  cases hf : f.fragment? p with
  | error cause =>
      rw [gather_error hf] at h
      cases h
  | ok text? =>
      by_cases hsilent : p.Silent f
      · rw [gather_silent hsilent] at h
        exact Or.inl ⟨hsilent, h⟩
      · cases text? with
        | none => exact absurd (Or.inl hf) hsilent
        | some text =>
            have hne : text ≠ "" := by
              rintro rfl
              exact hsilent (Or.inr hf)
            rw [gather_some hf hne] at h
            exact Or.inr ⟨text, rfl, hne, h⟩

/-- The text that a feature gives; the empty one where it gives none. -/
def textOf (p : Profile) (f : Feature) : String :=
  match f.fragment? p with
  | .ok (some text) => text
  | _ => ""

theorem textOf_of_silent {p : Profile} {f : Feature} (h : p.Silent f) : p.textOf f = "" := by
  rcases h with h | h
  all_goals rw [textOf, h]

theorem textOf_eq {p : Profile} {f : Feature} {text : String}
    (h : f.fragment? p = .ok (some text)) : p.textOf f = text := by
  rw [textOf, h]

theorem fragment?_of_textOf {p : Profile} {f : Feature} (h : p.textOf f ≠ "") :
    f.fragment? p = .ok (some (p.textOf f)) := by
  rw [textOf] at h ⊢
  split at h
  · rename_i heq
    rw [heq]
  · exact absurd rfl h

/-- The first `budget` features that give a text. -/
def takenFrom (p : Profile) (features : List Feature) (budget : Nat) : List Feature :=
  (features.filter fun f => p.textOf f != "").take budget

/-- The features that a description of an element is made of. -/
def taken (p : Profile) (budget : Nat) : List Feature :=
  p.takenFrom Feature.all budget

theorem textOf_ne_empty_of_taken {p : Profile} {features : List Feature} {budget : Nat}
    {f : Feature} (h : f ∈ p.takenFrom features budget) : p.textOf f ≠ "" := by
  have hmem := List.mem_of_mem_take h
  rw [List.mem_filter] at hmem
  simpa using hmem.2

theorem taken_sublist (p : Profile) (budget : Nat) : (p.taken budget).Sublist Feature.all :=
  (List.take_sublist _ _).trans List.filter_sublist

/-- The fragments are those of the features taken, each placed behind or in front of the ones
    before it. -/
theorem gather_eq {p : Profile} {features : List Feature} {budget : Nat}
    {fragments result : List String} (h : p.gather features budget fragments = .ok result) :
    result = (p.takenFrom features budget).foldl (fun placed f => place placed (p.textOf f))
      fragments := by
  induction features generalizing budget fragments with
  | nil =>
      cases h
      rw [takenFrom, List.filter_nil, List.take_nil]
      rfl
  | cons f rest ih =>
      cases budget with
      | zero =>
          cases h
          rw [takenFrom, List.take_zero]
          rfl
      | succ budget =>
          rcases gather_cases h with ⟨hsilent, hrest⟩ | ⟨text, hf, hne, hrest⟩
          · have hskip : p.takenFrom (f :: rest) (budget + 1) = p.takenFrom rest (budget + 1) := by
              rw [takenFrom, List.filter_cons_of_neg (by simp [textOf_of_silent hsilent])]
              rfl
            rw [hskip]
            exact ih hrest
          · have htake : p.takenFrom (f :: rest) (budget + 1) = f :: p.takenFrom rest budget := by
              rw [takenFrom, List.filter_cons_of_pos (by simp [textOf_eq hf, hne])]
              rfl
            rw [htake, List.foldl_cons, textOf_eq hf]
            exact ih hrest

/-- The text is a type selector exactly if it is read with the tag name in front. -/
theorem Says.isTypeFragment {p : Profile} {n text : String} {typed : Bool} {c : Compound}
    (h : p.Says n typed text.toList c) (hne : text ≠ "") : isTypeFragment text = typed := by
  have hchars : text.toList ≠ [] := by simpa using hne
  -- The first character tells: a mark, or the first of a name.
  generalize hlist : text.toList = chars at h hchars
  rw [Synthesis.isTypeFragment, hlist]
  cases h with
  | conditions hc htells =>
      cases hc with
      | nil => exact absurd rfl hchars
      | cons hx hxs =>
          obtain ⟨d, ds, rfl, hd⟩ := hx.mark
          rcases hd with rfl | rfl | rfl | rfl <;> rfl
  | @typed text xs hn hc htells =>
      have hstart := startsName_nameText hn text
      cases hform : nameText n ++ text with
      | nil => rfl
      | cons d ds =>
          rw [hform] at hstart
          have hne : ∀ c, isNameStart c = false → c ≠ '-' → c ≠ '\\' → d ≠ c :=
            fun c hname hhyphen hback => ne_of_startsName hstart hname hhyphen hback
          have h1 := hne '#' (by decide) (by decide) (by decide)
          have h2 := hne '.' (by decide) (by decide) (by decide)
          have h3 := hne '[' (by decide) (by decide) (by decide)
          have h4 := hne ':' (by decide) (by decide) (by decide)
          simp [h1, h2, h3, h4]

/-- One more feature: its text goes behind the others, or in front if it is the feature of the
    tag. -/
theorem says_place {p : Profile} {n text : String} {fragments : List String}
    {before : List Feature} {f : Feature}
    (h : p.Says n (decide (p.tagFeature ∈ before)) (String.join fragments).toList
      (p.compoundOf n before))
    (h' : p.Says n (decide (f = p.tagFeature)) text.toList (p.compoundOf n [f])) (hne : text ≠ "")
    (hnew : f ∉ before) :
    p.Says n (decide (p.tagFeature ∈ before ++ [f])) (String.join (place fragments text)).toList
      (p.compoundOf n (before ++ [f])) := by
  rw [place, h'.isTypeFragment hne]
  by_cases hf : f = p.tagFeature
  · subst hf
    rw [decide_eq_true (List.mem_append_right _ List.mem_cons_self), decide_eq_true rfl, if_pos rfl,
      compoundOf_concat_tag hnew, String.join_cons, String.toList_append]
    rw [decide_eq_true rfl] at h'
    -- The feature of the tag comes once, so what is there has no type in front.
    rw [decide_eq_false hnew] at h
    cases h with
    | conditions hxs htells => exact h'.append hxs htells
  · have hsame : decide (p.tagFeature ∈ before ++ [f]) = decide (p.tagFeature ∈ before) := by
      simp [Ne.symm hf]
    rw [hsame, decide_eq_false hf, if_neg Bool.false_ne_true, compoundOf_concat_other hf,
      String.join_append, String.toList_append, String.join_cons, String.join_nil,
      String.append_empty]
    rw [decide_eq_false hf] at h'
    cases h' with
    | conditions hxs htells => exact h.append hxs htells

theorem says_foldl {p : Profile} {n : String} (hp : p.Describes n) {before features : List Feature}
    {fragments : List String} (hnodup : (before ++ features).Nodup)
    (hloud : ∀ f ∈ features, p.textOf f ≠ "")
    (h : p.Says n (decide (p.tagFeature ∈ before)) (String.join fragments).toList
      (p.compoundOf n before)) :
    p.Says n (decide (p.tagFeature ∈ before ++ features))
      (String.join (features.foldl (fun placed f => place placed (p.textOf f)) fragments)).toList
      (p.compoundOf n (before ++ features)) := by
  induction features generalizing before fragments with
  | nil =>
      rw [List.append_nil]
      exact h
  | cons f rest ih =>
      have hne := hloud f List.mem_cons_self
      have hnew : f ∉ before := fun hmem =>
        (List.nodup_append.mp hnodup).2.2 f hmem f List.mem_cons_self rfl
      have hplaced := says_place h (says_fragment? hp (fragment?_of_textOf hne) hne) hne hnew
      rw [List.append_cons] at hnodup ⊢
      exact ih hnodup (fun g hg => hloud g (List.mem_cons_of_mem _ hg)) hplaced

/-- Every description is read as the conditions of the features taken, which hold of the
    element. -/
theorem says_describe {p : Profile} {n text : String} (hp : p.Describes n) {budget : Nat}
    (h : p.describe budget = .ok text) :
    p.Says n (decide (p.tagFeature ∈ p.taken budget)) text.toList
      (p.compoundOf n (p.taken budget)) := by
  rw [describe] at h
  obtain ⟨fragments, hgather, rfl⟩ := map_eq_ok h
  rw [gather_eq hgather]
  have hempty : p.Says n (decide (p.tagFeature ∈ [])) (String.join []).toList (p.compoundOf n []) :=
    Says.conditions SimplesText.nil fun x hx => nomatch hx
  have hnodup : (p.taken budget).Nodup := (p.taken_sublist budget).nodup (by decide)
  exact says_foldl hp hnodup (fun f hf => textOf_ne_empty_of_taken hf) hempty

end Profile

end Synthesis

end UniqueSelector
