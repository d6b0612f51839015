/-
  UniqueSelector.Proofs.Synthesis.Nameless

  The elements that cannot be described: those that no feature names, whose
  description is empty, and those with NUL in what a feature would write.

    * `Profile.Nameless` — no feature gives any text.
    * `Profile.describe_eq_empty_iff` — the description is empty just then.
    * `Profile.not_nameless` — an element with a tag name is described by something.
    * `Profile.exists_describe` — without NUL there is a description.
-/

import UniqueSelector.Proofs.Synthesis.Features

namespace UniqueSelector.Synthesis.Profile

open Text Identifier Selector

/-! ## When a description is empty -/

/-- No feature of the element gives any text. -/
def Nameless (p : Profile) : Prop :=
  ∀ f, p.Silent f

theorem join_place_ne_empty {text : String} (hne : text ≠ "") (fragments : List String) :
    String.join (place fragments text) ≠ "" := by
  have hchars : text.toList ≠ [] := by simpa using hne
  have hmem : text ∈ place fragments text := by
    rw [place]
    split <;> simp
  intro hempty
  have hlist := congrArg String.toList hempty
  rw [String.toList_join, String.toList_empty, List.flatMap_eq_nil_iff] at hlist
  exact hchars (hlist text hmem)

theorem join_place_of_join_ne_empty {text : String} {fragments : List String}
    (h : String.join fragments ≠ "") : String.join (place fragments text) ≠ "" := by
  intro hempty
  have hlist := congrArg String.toList hempty
  rw [String.toList_join, String.toList_empty, List.flatMap_eq_nil_iff] at hlist
  refine h (String.toList_inj.mp ?_)
  rw [String.toList_join, String.toList_empty, List.flatMap_eq_nil_iff]
  intro fragment hfragment
  refine hlist fragment ?_
  rw [place]
  split <;> simp [hfragment]

theorem gather_ne_empty {p : Profile} {features : List Feature} {budget : Nat}
    {fragments result : List String} (h : String.join fragments ≠ "")
    (hresult : p.gather features budget fragments = .ok result) : String.join result ≠ "" := by
  induction features generalizing budget fragments with
  | nil =>
      cases hresult
      exact h
  | cons f rest ih =>
      cases budget with
      | zero =>
          cases hresult
          exact h
      | succ budget =>
          rcases gather_cases hresult with ⟨-, hresult⟩ | ⟨text, -, -, hresult⟩
          · exact ih h hresult
          · exact ih (join_place_of_join_ne_empty h) hresult

theorem gather_eq_nil_iff (p : Profile) (features : List Feature) (budget : Nat) :
    (∃ result, p.gather features (budget + 1) [] = .ok result ∧ String.join result = "") ↔
      ∀ f ∈ features, p.Silent f := by
  induction features with
  | nil =>
      constructor
      · intro _ f hf
        cases hf
      · intro _
        exact ⟨[], rfl, rfl⟩
  | cons f rest ih =>
      constructor
      · rintro ⟨result, hresult, hempty⟩
        rcases gather_cases hresult with ⟨hf, hresult⟩ | ⟨text, -, hne, hresult⟩
        · intro g hg
          rcases List.mem_cons.mp hg with rfl | hg
          · exact hf
          · exact ih.mp ⟨result, hresult, hempty⟩ g hg
        · exact absurd hempty (gather_ne_empty (join_place_ne_empty hne []) hresult)
      · intro h
        rw [gather_silent (h f List.mem_cons_self)]
        exact ih.mpr fun g hg => h g (List.mem_cons_of_mem _ hg)

/-- A description that may take a feature is empty only where no feature gives any text. -/
theorem describe_eq_empty_iff {p : Profile} {budget : Nat} (hbudget : 0 < budget) :
    p.describe budget = .ok "" ↔ p.Nameless := by
  obtain ⟨budget, rfl⟩ := Nat.exists_eq_succ_of_ne_zero (Nat.ne_of_gt hbudget)
  have hall : p.Nameless ↔ ∀ f ∈ Feature.all, p.Silent f := by
    constructor
    · intro h f _
      exact h f
    · intro h f
      exact h f (by cases f <;> decide)
  rw [hall, ← gather_eq_nil_iff p Feature.all budget, describe]
  cases p.gather Feature.all (budget + 1) [] with
  | error cause => simp [Except.map]
  | ok result => simp [Except.map]

/-- The feature of the tag name gives a text that begins with it, unless it cannot be written. -/
theorem fragment?_tagFeature (p : Profile) :
    (∃ rest, p.tagFeature.fragment? p = .ok (some (p.tag ++ rest))) ∨
      ∃ cause, p.tagFeature.fragment? p = .error cause := by
  rw [tagFeature]
  split
  · rename_i hcustom
    refine Or.inl ⟨"", ?_⟩
    rw [Feature.fragment?, if_pos hcustom, String.append_empty]
  · rename_i hcustom
    split
    · rename_i hgeneric
      refine Or.inl ⟨"", ?_⟩
      rw [Feature.fragment?, if_pos hgeneric, String.append_empty]
    · rename_i hgeneric
      have hkind : ¬ (p.isGeneric || p.isCustom) = true := by simp [hcustom, hgeneric]
      rw [Feature.fragment?, Feature.tellingTagFragment?, if_neg hkind]
      split
      · cases attributeFragment? "type" (p.element.attribute? "type") with
        | error cause => exact Or.inr ⟨cause, rfl⟩
        | ok type? => exact Or.inl ⟨type?.getD "", rfl⟩
      · exact Or.inl ⟨"", by rw [String.append_empty]⟩

theorem tag_eq_empty_of_nameless {p : Profile} (h : p.Nameless) : p.tag = "" := by
  rcases fragment?_tagFeature p with ⟨rest, hfragment⟩ | ⟨cause, hfragment⟩
  · rcases h p.tagFeature with h | h
    · rw [hfragment] at h
      cases h
    · rw [hfragment] at h
      have hchars := congrArg String.toList (Option.some.inj (Except.ok.inj h))
      rw [String.toList_append, String.toList_empty, List.append_eq_nil_iff] at hchars
      exact String.toList_eq_nil_iff.mp hchars.1
  · rcases h p.tagFeature with h | h
    all_goals
      rw [hfragment] at h
      cases h

/-- An element with a tag name has a feature that gives a text. -/
theorem not_nameless {p : Profile} {n : String} (hp : p.Describes n) (hn : n ≠ "") :
    ¬ p.Nameless := by
  intro hnameless
  have hstart := startsName_nameText ⟨hn, hp.nulFree⟩ []
  rw [← hp.tag, tag_eq_empty_of_nameless hnameless] at hstart
  cases hstart

/-! ## When a description fails -/

/-- An element has a profile, unless its tag name cannot be written. -/
theorem ofNode?_ne_none {t : Tree} {id : NodeId} {e : Element} (he : t.element? id = some e) :
    ofNode? t id ≠ .ok none := by
  rw [ofNode?, he]
  dsimp only
  cases escape (e.selectorName t.markup) with
  | error cause => rintro ⟨⟩
  | ok tag => rintro ⟨⟩

theorem exists_ofNode? {t : Tree} {id : NodeId} {e : Element} (he : t.element? id = some e)
    (hfree : e.NulFree) : ∃ p, ofNode? t id = .ok (some p) := by
  rw [ofNode?, he]
  dsimp only
  rw [escape_eq_ok (hfree.selectorName t.markup)]
  exact ⟨_, rfl⟩

theorem exists_attributeFragment {value : String} (name : String) (h : '\x00' ∉ value.toList) :
    ∃ text, attributeFragment name value = .ok text := by
  rw [attributeFragment, escape_eq_ok h]
  exact ⟨_, rfl⟩

theorem exists_attributeFragment? {value? : Option String} (name : String)
    (h : ∀ value, value? = some value → '\x00' ∉ value.toList) :
    ∃ text?, attributeFragment? name value? = .ok text? := by
  cases value? with
  | none => exact ⟨none, rfl⟩
  | some value =>
      obtain ⟨text, htext⟩ := exists_attributeFragment name (h value rfl)
      rw [attributeFragment?, htext]
      exact ⟨_, rfl⟩

theorem exists_classFragment {names : List String} (h : ∀ name ∈ names, '\x00' ∉ name.toList) :
    ∃ text, classFragment names = .ok text := by
  induction names with
  | nil => exact ⟨"", rfl⟩
  | cons name rest ih =>
      obtain ⟨others, hothers⟩ := ih fun m hm => h m (List.mem_cons_of_mem _ hm)
      rw [classFragment, escape_eq_ok (h name List.mem_cons_self), hothers]
      exact ⟨_, rfl⟩

/-- Without NUL every feature can be written. -/
theorem exists_fragment? {p : Profile} {n : String} (hp : p.Describes n)
    (hfree : p.element.NulFree) (f : Feature) : ∃ text?, f.fragment? p = .ok text? := by
  cases f with
  | customTag => exact ⟨_, rfl⟩
  | genericTag => exact ⟨_, rfl⟩
  | link => exact ⟨_, rfl⟩
  | role => exact exists_attributeFragment? "role" (hfree.2 "role")
  | name =>
      rw [Feature.fragment?]
      split
      · exact ⟨none, rfl⟩
      · refine exists_attributeFragment? "name" fun value hvalue => ?_
        exact hfree.2 "name" value (Option.filter_eq_some_iff.mp hvalue).1
  | classes =>
      rw [Feature.fragment?]
      split
      · obtain ⟨text, htext⟩ := exists_classFragment fun name hname =>
          hfree.class (hp.classes name hname)
        rw [htext]
        exact ⟨_, rfl⟩
      · exact ⟨none, rfl⟩
  | tellingTag =>
      rw [Feature.fragment?, Feature.tellingTagFragment?]
      split
      · exact ⟨none, rfl⟩
      · split
        · obtain ⟨type?, htype⟩ := exists_attributeFragment? "type" (hfree.2 "type")
          rw [htype]
          exact ⟨_, rfl⟩
        · exact ⟨_, rfl⟩

theorem exists_gather {p : Profile} (h : ∀ f : Feature, ∃ text?, f.fragment? p = .ok text?)
    (features : List Feature) (budget : Nat) (fragments : List String) :
    ∃ result, p.gather features budget fragments = .ok result := by
  induction features generalizing budget fragments with
  | nil => exact ⟨fragments, rfl⟩
  | cons f rest ih =>
      cases budget with
      | zero => exact ⟨fragments, rfl⟩
      | succ budget =>
          by_cases hsilent : p.Silent f
          · rw [gather_silent hsilent]
            exact ih (budget + 1) fragments
          · obtain ⟨text?, hf⟩ := h f
            cases text? with
            | none => exact absurd (Or.inl hf) hsilent
            | some text =>
                have hne : text ≠ "" := by
                  rintro rfl
                  exact hsilent (Or.inr hf)
                rw [gather_some hf hne]
                exact ih budget (place fragments text)

/-- Without NUL every element can be described. -/
theorem exists_describe {p : Profile} {n : String} (hp : p.Describes n)
    (hfree : p.element.NulFree) (budget : Nat) : ∃ text, p.describe budget = .ok text := by
  obtain ⟨result, hresult⟩ := exists_gather (exists_fragment? hp hfree) Feature.all budget []
  rw [describe, hresult]
  exact ⟨_, rfl⟩

end UniqueSelector.Synthesis.Profile
