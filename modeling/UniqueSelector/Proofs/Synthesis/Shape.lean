/-
  UniqueSelector.Proofs.Synthesis.Shape

  What a selector that was found looks like, read back from its text. No value of
  an attribute, however odd, adds a combinator or a condition to it: there is one
  compound for each level the climb came by, and each is of one of two shapes.

    * `Shaped` — an id that the element alone has; or the features of the element,
      its place among its siblings, and the mark of the document element, each of
      the last two where it is needed.
    * `Telling` — the conditions that features add.
    * `Writes.exists_shaped` — one level; `exists_compounds` — all of them.
    * `synthesizeIn_shape` — the selectors of loaded documents.

  The words that the search avoids are looked for in written forms. That they are
  avoided in the values themselves is a fact about what is written as it is
  (`steady_of_written`).
-/

import UniqueSelector.Proofs.Synthesis.ClosedForm

namespace UniqueSelector

open Text Identifier Selector

/-! ## The compounds of a selector -/

theorem Selector.compounds_down (s : Selector) (cs : List Compound) :
    (s.down cs).compounds = cs.reverse ++ s.compounds := by
  induction cs generalizing s with
  | nil => rfl
  | cons c cs ih =>
      show ((s.extend .child c).down cs).compounds = _
      rw [ih, compounds_extend, List.reverse_cons, List.append_assoc]
      rfl

theorem Selector.compounds_path (c : Compound) (cs : List Compound) :
    (path c cs).compounds = (c :: cs).reverse := by
  rw [path, compounds_down, List.reverse_cons]
  rfl

/-- Every compound is a child of the one to its left. -/
def Selector.ChildrenOnly (s : Selector) : Prop :=
  ∀ link ∈ s.chain, link.1 = .child

theorem Selector.ChildrenOnly.down {s : Selector} (h : s.ChildrenOnly) (cs : List Compound) :
    (s.down cs).ChildrenOnly := by
  induction cs generalizing s with
  | nil => exact h
  | cons c cs ih =>
      show ((s.extend .child c).down cs).ChildrenOnly
      apply ih
      intro link hlink
      rcases List.mem_cons.mp hlink with rfl | hlink
      · rfl
      · exact h link hlink

theorem Selector.childrenOnly_path (c : Compound) (cs : List Compound) :
    (path c cs).ChildrenOnly := by
  apply ChildrenOnly.down
  intro link hlink
  cases hlink

/-- The condition is a class. -/
def SimpleSelector.isClass : SimpleSelector → Bool
  | .className _ => true
  | _ => false

namespace Synthesis

/-! ## Shapes -/

/-- A condition that tells something about the element besides its tag name. -/
inductive Telling (t : Tree) (node : NodeId) (e : Element) : SimpleSelector → Prop
  /-- A class of the element with no transient part, which no sibling has. -/
  | class {name : String} (hclass : name ∈ e.classes)
      (htelling : ∀ part ∈ transientClassParts, contains name part = false)
      (halone : ∀ sibling ∈ others t node, ∀ e', t.element? sibling = some e' →
        e'.hasClass name = false) :
      Telling t node e (.className name)
  | value {name value : String} (hname : name ∈ ["role", "type", "name"])
      (hvalue : e.attribute? name = some value) :
      Telling t node e (.attribute { name, agreement? := some (.equals, value) })
  | suffix {name target suffix : String} (hname : name ∈ ["href", "src"])
      (htarget : e.attribute? name = some target) (hends : endsWith target suffix = true) :
      Telling t node e (.attribute { name, agreement? := some (.finish, suffix) })

/-- The type of the element in front or not at all, then telling conditions, two classes among
    them at most. -/
inductive FeaturesOf (t : Tree) (node : NodeId) (e : Element) : Compound → Prop
  | typed {conditions : Compound} (htelling : ∀ x ∈ conditions, Telling t node e x)
      (hclasses : conditions.countP SimpleSelector.isClass ≤ 2) :
      FeaturesOf t node e (.typeName (e.selectorName t.markup) :: conditions)
  | untyped {conditions : Compound} (htelling : ∀ x ∈ conditions, Telling t node e x)
      (hclasses : conditions.countP SimpleSelector.isClass ≤ 2) : FeaturesOf t node e conditions

/-- Nothing, or the number of the element among its siblings. -/
inductive PlaceOf (t : Tree) (node : NodeId) : Compound → Prop
  | none : PlaceOf t node []
  | position {offset : Int64} {k : Nat} (hindex : t.elementIndex? node = some k)
      (hoffset : offset.toInt = k) :
      PlaceOf t node [.pseudo (.nthChild { step := 0, offset })]

/-- Nothing, or the mark of the document element. -/
inductive MarkOf (t : Tree) (node : NodeId) : Compound → Prop
  | none : MarkOf t node []
  | top (h : t.documentElement? = some node) : MarkOf t node [.pseudo .root]

/-- The compounds that a level can have. -/
inductive Shaped (t : Tree) (node : NodeId) : Compound → Prop
  /-- The id of the element, which is not volatile, and no other element has it. -/
  | ownId {id : String} (hid : t.attribute? node "id" = some id) (hne : id ≠ "")
      (hsteady : contains id volatileIdMark = false)
      (honly : ∀ x, t.attribute? x "id" = some id → x = node) : Shaped t node [.idName id]
  | described {e : Element} {features place mark : Compound} (he : t.element? node = some e)
      (hfeatures : FeaturesOf t node e features) (hplace : PlaceOf t node place)
      (hmark : MarkOf t node mark) : Shaped t node (features ++ place ++ mark)

/-- No feature is the mark of the document element. -/
theorem FeaturesOf.root_not_mem {t : Tree} {node : NodeId} {e : Element} {c : Compound}
    (h : FeaturesOf t node e c) : .pseudo .root ∉ c := by
  have htelling : ∀ conditions : Compound, (∀ x ∈ conditions, Telling t node e x) →
      .pseudo .root ∉ conditions := by
    intro conditions hall hmem
    cases hall _ hmem
  cases h with
  | typed hall _ =>
      intro hmem
      rcases List.mem_cons.mp hmem with heq | hmem
      · cases heq
      · exact htelling _ hall hmem
  | untyped hall _ => exact htelling _ hall

theorem Shaped.eq_documentElement {t : Tree} {node : NodeId} {c : Compound} (h : Shaped t node c)
    (hroot : .pseudo .root ∈ c) : t.documentElement? = some node := by
  cases h with
  | ownId => simp at hroot
  | described _ hfeatures hplace hmark =>
      rcases List.mem_append.mp hroot with hroot | hroot
      · rcases List.mem_append.mp hroot with hroot | hroot
        · exact absurd hroot hfeatures.root_not_mem
        · cases hplace with
          | none => cases hroot
          | position _ _ => simp at hroot
      · cases hmark with
        | none => cases hroot
        | top htop => exact htop

/-! ## Ids -/

/-- The volatile mark is written as it is, so an id that holds it is written with it. -/
theorem steady_of_written {id e : String} (he : escape id = .ok e)
    (h : contains ("#" ++ e) volatileIdMark = false) : contains id volatileIdMark = false := by
  have hplain : ∀ c ∈ volatileIdMark.toList, WrittenPlain c := by
    have hall : volatileIdMark.toList.all fun c =>
        escapeInner c == [c] && !c.isDigit && c != '-' := by decide
    intro c hc
    have hself := List.all_eq_true.mp hall c hc
    simp only [Bool.and_eq_true, beq_iff_eq, Bool.not_eq_true', bne_iff_ne] at hself
    exact ⟨hself.1.1, hself.1.2, hself.2⟩
  rw [Bool.eq_false_iff] at h ⊢
  intro hcontains
  apply h
  rw [contains_iff] at hcontains ⊢
  rw [String.toList_append, nameText_of_escape he, nameText]
  exact (infix_escapeChars hplain hcontains).trans (List.suffix_append _ _).isInfix

theorem OwnId.shaped {t : Tree} (ht : t.IsDocument) {node : NodeId} {id selector : String}
    (h : OwnId t node id selector) : Shaped t node [.idName id] := by
  obtain ⟨e, he, hselector⟩ := h.written
  have hsteady := h.steady
  rw [hselector] at hsteady
  refine Shaped.ownId h.has h.ne_empty (steady_of_written he hsteady) fun x hx => ?_
  have hmem : ∀ y, t.attribute? y "id" = some id → y ∈ t.elements := fun y hy =>
    ht.mem_elements (Tree.isElement_of_meetsAll (meetsAll_idName hy))
  -- The host found one element with the id, and both have it.
  exact find_unique h.reads h.found (hmem x hx) (meetsAll_idName hx) (hmem node h.has)
    (meetsAll_idName h.has)

/-! ## Features -/

theorem Profile.distinctClasses_of_ofNode? {t : Tree} {node : NodeId} {p : Profile}
    (h : ofNode? t node = .ok (some p)) :
    p.distinctClasses = t.distinctClasses node p.element := by
  rw [ofNode?] at h
  split at h
  · cases h
  · rename_i e _
    obtain ⟨tag, -, hpure⟩ := bind_eq_ok h
    cases hpure
    rfl

theorem telling_class {t : Tree} {node : NodeId} {e : Element} {name : String}
    (h : name ∈ t.distinctClasses node e) : Telling t node e (.className name) := by
  rw [Tree.distinctClasses, List.mem_filter, List.mem_filter] at h
  obtain ⟨⟨hclass, htelling⟩, halone⟩ := h
  refine Telling.class hclass ?_ ?_
  · intro part hpart
    have hnone := List.all_eq_true.mp htelling part hpart
    simpa using hnone
  · intro sibling hsibling e' he'
    rw [Bool.not_eq_true', List.any_eq_false] at halone
    have hother := halone e' (List.mem_filterMap.mpr ⟨sibling, hsibling, he'⟩)
    simpa using hother

theorem Profile.Tells.telling {t : Tree} {node : NodeId} {p : Profile}
    (hp : Profile.ofNode? t node = .ok (some p)) {x : SimpleSelector} (h : p.Tells x) :
    Telling t node p.element x := by
  cases h with
  | value hname hvalue => exact Telling.value hname hvalue
  | «class» hname =>
      rw [Profile.distinctClasses_of_ofNode? hp] at hname
      exact telling_class hname
  | link hname htarget _ hends => exact Telling.suffix hname htarget hends

/-- Only the feature of the classes names classes, and it names two at most. -/
theorem countP_conditions_le {p : Profile} {f : Feature} (h : p.textOf f ≠ "") :
    (f.conditions p).countP SimpleSelector.isClass ≤ if f = .classes then 2 else 0 := by
  have hvalue : ∀ (name : String) (value? : Option String),
      (Profile.valueCondition name value?).countP SimpleSelector.isClass ≤ 0 := by
    intro name value?
    cases value? <;> exact Nat.le_refl 0
  cases f with
  | customTag => exact Nat.le_refl 0
  | genericTag => exact Nat.le_refl 0
  | role => exact hvalue _ _
  | name => exact hvalue _ _
  | tellingTag =>
      rw [Feature.conditions]
      split
      · exact hvalue _ _
      · exact Nat.le_refl 0
  | link =>
      rw [Feature.conditions, Profile.linkCondition]
      cases linkTarget? p.element with
      | none => exact Nat.le_refl 0
      | some link =>
          rw [Option.bind_some]
          cases Uri.friendlySuffix {} link.2 <;> exact Nat.le_refl 0
  | classes =>
      -- It gives a text for one class or for two, and for no other number.
      have hsome := Profile.fragment?_of_textOf h
      rw [Feature.fragment?] at hsome
      split at hsome
      · rename_i hcount
        have hlength : p.distinctClasses.length ≤ 2 := by
          simp only [Bool.or_eq_true, beq_iff_eq] at hcount
          omega
        apply Nat.le_trans List.countP_le_length
        rw [Feature.conditions, List.length_map]
        exact hlength
      · cases hsome

theorem countP_flatMap_conditions_le {p : Profile} {features : List Feature}
    (hnodup : features.Nodup) (hloud : ∀ f ∈ features, p.textOf f ≠ "") :
    (features.flatMap (Feature.conditions p)).countP SimpleSelector.isClass ≤
      if .classes ∈ features then 2 else 0 := by
  induction features with
  | nil => exact Nat.le_refl 0
  | cons f rest ih =>
      obtain ⟨hnew, hnodup⟩ := List.nodup_cons.mp hnodup
      have hfirst := countP_conditions_le (hloud f List.mem_cons_self)
      have hrest := ih hnodup fun g hg => hloud g (List.mem_cons_of_mem _ hg)
      rw [List.flatMap_cons, List.countP_append]
      by_cases hf : f = .classes
      · subst hf
        rw [if_neg hnew] at hrest
        simp only [if_true, List.mem_cons_self] at hfirst ⊢
        omega
      · simp only [hf, if_false, List.mem_cons, Ne.symm hf, false_or] at hfirst ⊢
        omega

theorem countP_compoundOf_le (p : Profile) (n : String) (budget : Nat) :
    (p.compoundOf n (p.taken budget)).countP SimpleSelector.isClass ≤ 2 := by
  have hloud : ∀ f ∈ p.taken budget, p.textOf f ≠ "" :=
    fun f hf => Profile.textOf_ne_empty_of_taken hf
  have hnodup : (p.taken budget).Nodup := (p.taken_sublist budget).nodup (by decide)
  rw [Profile.compoundOf, List.countP_append]
  have hothers : (((p.taken budget).filter (· ≠ p.tagFeature)).flatMap
      (Feature.conditions p)).countP SimpleSelector.isClass ≤ 2 := by
    apply Nat.le_trans (countP_flatMap_conditions_le (hnodup.filter _) ?_)
    · split <;> omega
    · intro f hf
      exact hloud f (List.mem_of_mem_filter hf)
  -- The feature of the tag stands apart in front, and it is not that of the classes.
  split
  · rename_i htag
    have hnone := countP_conditions_le (hloud p.tagFeature htag)
    have hne : p.tagFeature ≠ .classes := by
      intro heq
      have hmem := p.tagFeature_mem
      rw [heq] at hmem
      exact absurd hmem (by decide)
    rw [if_neg hne] at hnone
    rw [List.countP_cons_of_neg (by simp [SimpleSelector.isClass])]
    omega
  · rw [List.countP_nil]
    omega

theorem Profile.Says.featuresOf {t : Tree} {node : NodeId} {p : Profile}
    (hp : Profile.ofNode? t node = .ok (some p)) {typed : Bool} {text : List Char} {c : Compound}
    (h : p.Says (p.element.selectorName t.markup) typed text c)
    (hclasses : c.countP SimpleSelector.isClass ≤ 2) : FeaturesOf t node p.element c := by
  cases h with
  | conditions _ htells => exact FeaturesOf.untyped (fun x hx => (htells x hx).telling hp) hclasses
  | typed _ _ htells =>
      rw [List.countP_cons_of_neg (by simp [SimpleSelector.isClass])] at hclasses
      exact FeaturesOf.typed (fun x hx => (htells x hx).telling hp) hclasses

/-- Only an element without a tag name is described by no text at all. -/
theorem Profile.describe_ne_empty {t : Tree} {node : NodeId} {p : Profile}
    (hp : ofNode? t node = .ok (some p)) (htag : p.element.tag ≠ "") {budget : Nat}
    (hbudget : 0 < budget) {text : String} (htext : p.describe budget = .ok text) : text ≠ "" := by
  rintro rfl
  obtain ⟨-, hdescribes⟩ := describes_of_ofNode? hp
  exact not_nameless hdescribes (Element.selectorName_ne_empty htag t.markup)
    ((describe_eq_empty_iff hbudget).mp htext)

/-! ## Levels -/

section Levels

variable {t : Tree} (ht : t.IsDocument) (hsize : t.FitsMemory) (htags : t.Tagged)

include ht hsize

theorem Suffix.exists_place {node : NodeId} (hnode : t.isElement node = true) {text place : String}
    (h : Suffix t node text place) :
    ∃ xs, SimplesText place.toList xs ∧ PlaceOf t node xs := by
  cases h with
  | @shared sibling hsibling _ =>
      obtain ⟨parent, hparent⟩ := parentElement?_of_others (List.ne_nil_of_mem hsibling)
      obtain ⟨offset, hplaced⟩ := placeFragment_reads ht.linked hsize hnode hparent
      obtain ⟨k, hindex, hoffset⟩ := hplaced.index
      exact ⟨_, SimplesText.single hplaced.reads, PlaceOf.position hindex hoffset⟩
  | alone _ => exact ⟨[], SimplesText.nil, PlaceOf.none⟩

include htags

/-- The features of an element with a tag name are read as a compound, with its place or not. -/
theorem exists_described {node : NodeId} {p : Profile} {budget : Nat} (hbudget : 0 < budget)
    (hp : Profile.ofNode? t node = .ok (some p)) {text place : String}
    (htext : p.describe budget = .ok text) (hplace : Suffix t node text place) :
    ∃ features xs, CompoundText (text ++ place).toList (features ++ xs) ∧
      FeaturesOf t node p.element features ∧ PlaceOf t node xs := by
  obtain ⟨helement, hdescribes⟩ := Profile.describes_of_ofNode? hp
  have hne := Profile.describe_ne_empty hp (htags node p.element helement) hbudget htext
  have hsaid := Profile.says_describe hdescribes htext
  have hnode := (t.isElement_iff node).mpr ⟨p.element, helement⟩
  obtain ⟨xs, hxs, hplaceOf⟩ := hplace.exists_place ht hsize hnode
  refine ⟨_, xs, ?_, hsaid.featuresOf hp (countP_compoundOf_le p _ budget), hplaceOf⟩
  rw [String.toList_append]
  exact (hsaid.compoundText (by simpa using hne)).append hxs

/-- What a level writes is read as a compound of one of the two shapes. -/
theorem Writes.exists_shaped {n : Nat → NodeId} {options : Options} {i : Nat} {text : String}
    (h : Writes t n options i text) : ∃ c, CompoundText text.toList c ∧ Shaped t (n i) c := by
  have hbudget : 0 < budget options i := by
    rw [budget]
    split <;> omega
  cases h with
  | marked hfragment hmark =>
      cases hfragment with
      -- The mark is written where the document element has no id of its own.
      | ownId hown => exact absurd ⟨_, _, hown⟩ hmark.2.1
      | features _ hp htext hplace =>
          obtain ⟨features, xs, hreads, hfeatures, hplaceOf⟩ :=
            exists_described ht hsize htags hbudget hp htext hplace
          refine ⟨features ++ xs ++ [.pseudo .root], ?_, ?_⟩
          · rw [String.toList_append]
            exact hreads.append (SimplesText.single simpleText_root)
          · exact Shaped.described (Profile.describes_of_ofNode? hp).1 hfeatures hplaceOf
              (MarkOf.top hmark.1)
  | plain hfragment _ =>
      cases hfragment with
      | ownId hown => exact ⟨_, hown.reads, hown.shaped ht⟩
      | features _ hp htext hplace =>
          obtain ⟨features, xs, hreads, hfeatures, hplaceOf⟩ :=
            exists_described ht hsize htags hbudget hp htext hplace
          have hshaped := Shaped.described (Profile.describes_of_ofNode? hp).1 hfeatures hplaceOf
            MarkOf.none
          rw [List.append_nil] at hshaped
          exact ⟨_, hreads, hshaped⟩

theorem exists_compounds {n : Nat → NodeId} {options : Options} {levels : List Nat}
    {fragments : List String} (h : List.Forall₂ (Writes t n options) levels fragments) :
    ∃ cs, ReadAs fragments cs ∧ List.Forall₂ (Shaped t) (levels.map n) cs := by
  induction h with
  | nil => exact ⟨[], List.Forall₂.nil, List.Forall₂.nil⟩
  | cons hwrites _ ih =>
      obtain ⟨c, hreads, hshaped⟩ := hwrites.exists_shaped ht hsize htags
      obtain ⟨cs, hrest, hall⟩ := ih
      exact ⟨c :: cs, List.Forall₂.cons hreads hrest, List.Forall₂.cons hshaped hall⟩

end Levels

/-! ## The whole selector -/

/-- A level with a parent element is not that of the document element. -/
theorem root_not_mem_of_shaped {t : Tree} (ht : t.Linked) {levels : List NodeId}
    {cs : List Compound} (h : List.Forall₂ (Shaped t) levels cs)
    (hparent : ∀ x ∈ levels, t.parentElement? x ≠ none) : ∀ c ∈ cs, .pseudo .root ∉ c := by
  induction h with
  | nil => simp
  | @cons level c levels cs hshaped _ ih =>
      intro c' hc' hroot
      rcases List.mem_cons.mp hc' with rfl | hc'
      · apply hparent level List.mem_cons_self
        exact (parentElement?_of_documentElement? ht (hshaped.eq_documentElement hroot)).2
      · exact ih (fun x hx => hparent x (List.mem_cons_of_mem _ hx)) c' hc' hroot

/-- The selector of an element reads back as a path of children, with a compound of one of the two
    shapes for each level that the climb came by, and the mark of the document element in the
    leftmost one only. -/
theorem synthesizeIn_shape {markup : Markup} {json : String} {t : Tree}
    (hload : Tree.load markup json = .ok t) (hsize : t.FitsMemory) (htags : t.Tagged)
    {node : NodeId} (hnode : t.isElement node = true) {options : Options} {log : WarningLog}
    {selector : String} (h : ((synthesizeIn t (some node) options).run log).1 = .ok selector) :
    ∃ s levels, Selector.ofString selector = .ok s ∧ s.ChildrenOnly ∧
      levels <+: node :: t.ancestors node ∧
      (∀ x, (∃ a, Reaches t (Ascent.start node options) a ∧ a.node = x) ↔ x ∈ levels) ∧
      List.Forall₂ (Shaped t) levels s.compounds ∧
      ∀ c ∈ s.compounds.dropLast, .pseudo .root ∉ c := by
  have ht := Tree.isDocument_of_load hload
  obtain ⟨n, r, rfl, hline⟩ := ht.linked.exists_line hnode
  have hsmooth := smooth_of_ok ht.linked hnode h
  obtain ⟨e, fragments, hclosed⟩ := climb_closed ht.linked hline
    (length_ancestors_lt_size ht.linked hnode) (at_start t n options) (Nat.zero_le r)
    (by simp) hsmooth
  have hanswer := hclosed.answers log
  rw [synthesizeIn, synthesize_eq _ hnode] at h
  rw [h] at hanswer
  obtain rfl := Except.ok.inj hanswer
  -- The level it ends at is at the top or below it.
  have he : e ≤ r := hclosed.ends.2 (stops_top t n options r)
  have hlevels := hclosed.writes
  rw [List.range_succ, List.reverse_append] at hlevels
  obtain ⟨text, rest, hwrites, hbelow, rfl⟩ := List.forall₂_cons_left_iff.mp hlevels
  obtain ⟨c, hreads, hshaped⟩ := hwrites.exists_shaped ht hsize htags
  obtain ⟨cs, hrest, hall⟩ := exists_compounds ht hsize htags hbelow
  have hread := ofString_joinLevels (List.Forall₂.cons hreads hrest)
  have hprefix := hline.prefix_ancestors ht.linked he
  refine ⟨path c cs, (List.range (e + 1)).map n, hread, childrenOnly_path c cs, hprefix, ?_, ?_, ?_⟩
  · intro x
    rw [hclosed.visits x, List.mem_map]
    constructor
    · rintro ⟨j, -, hj, rfl⟩
      exact ⟨j, List.mem_range.mpr (Nat.lt_succ_of_le hj), rfl⟩
    · rintro ⟨j, hj, rfl⟩
      exact ⟨j, Nat.zero_le j, Nat.le_of_lt_succ (List.mem_range.mp hj), rfl⟩
  · rw [compounds_path, ← List.forall₂_reverse_iff, List.reverse_reverse, ← List.map_reverse,
      List.range_succ, List.reverse_append]
    exact List.Forall₂.cons hshaped hall
  · rw [compounds_path, List.reverse_cons, List.dropLast_concat]
    intro c' hc'
    apply root_not_mem_of_shaped ht.linked hall ?_ c' (List.mem_reverse.mp hc')
    -- Below the level it ends at there is a parent element to go on at.
    intro x hx
    obtain ⟨i, hi, rfl⟩ := List.mem_map.mp hx
    have hlt : i < e := by simpa using hi
    rw [hline.parent i (Nat.lt_of_lt_of_le hlt he)]
    exact Option.some_ne_none _

/-- A name with a bracket and a combinator in it, in a list with an id. -/
theorem synthesizeIn_shape_odd_name :
    let json := "\x7b\"tag\":\"ul\",\"attrs\":\x7b\"id\":\"menu\"\x7d,\"children\":[" ++
      "\x7b\"tag\":\"a\"\x7d,\x7b\"tag\":\"a\",\"attrs\":\x7b\"name\":\"] > b\"\x7d\x7d]\x7d"
    let t := Tree.ofSketch .html
      (.element { tag := "ul", attributes := .ofList [("id", "menu")] }
        [.element { tag := "a" } [],
          .element { tag := "a", attributes := .ofList [("name", "] > b")] } []])
    Tree.load .html json = .ok t ∧
    ((synthesizeIn t (some 3) {}).run {}).1 = .ok "#menu > a[name=\"\\]\\ \\>\\ b\"]" ∧
    ∃ s levels, Selector.ofString "#menu > a[name=\"\\]\\ \\>\\ b\"]" = .ok s ∧ s.ChildrenOnly ∧
      levels <+: 3 :: t.ancestors 3 ∧ List.Forall₂ (Shaped t) levels s.compounds := by
  intro json t
  have hload : Tree.load .html json = .ok t := by
    subst json t
    decide +kernel
  have hsize : t.FitsMemory := by
    rw [Tree.FitsMemory, show t.size = 4 from rfl]
    decide
  have htags : t.Tagged := Tree.tagged_of_data (by decide)
  have hnode : t.isElement 3 = true := rfl
  have hanswer : ((synthesizeIn t (some 3) {}).run {}).1 =
      .ok "#menu > a[name=\"\\]\\ \\>\\ b\"]" := by
    subst t
    decide +kernel
  obtain ⟨s, levels, hread, hchildren, hprefix, -, hshaped, -⟩ :=
    synthesizeIn_shape hload hsize htags hnode hanswer
  exact ⟨hload, hanswer, s, levels, hread, hchildren, hprefix, hshaped⟩

end Synthesis

end UniqueSelector
