/-
  UniqueSelector.Proofs.Synthesis.Link

  When the feature of the link gives a text, and what the text says. The end of
  the target is written percent-encoded and must still be an end of the target;
  where no port is cut out of it that is so only if nothing had to be encoded.

    * `NamesEnd` — a text that names the end of a link.
    * `LinkExact` — what the feature gives, and when.
    * `link_exact` — what it gives of any element.
-/

import UniqueSelector.Proofs.Synthesis.Level

namespace UniqueSelector.Synthesis

open Text Selector

/-- The text reads as one condition, on the end of one attribute. The end is not empty, and every
    node with the data of `e` meets the condition. -/
structure NamesEnd (e : Element) (name ending text : String) : Prop where
  ending_ne : ending ≠ ""
  reads : Selector.ofString text =
    .ok { subject := [.attribute { name, agreement? := some (.finish, ending) }] }
  met : ∀ t : Tree, ∀ node, t.element? node = some e → t.check node text = .ok true

/-- What the link of an element is named by: a text that names the friendly suffix, percent-encoded,
    where that is an end of the target, and else nothing. -/
structure LinkExact (e : Element) (text? : Option String) : Prop where
  isSome_iff : text?.isSome ↔ ∃ name target suffix, PointsTo e name target ∧
    Uri.friendlySuffix {} target = some suffix ∧ (Uri.encode suffix).toList <:+ target.toList
  isSome_iff_plain : ∀ name target suffix, PointsTo e name target →
    (Uri.Parts.ofString target).port = [] → Uri.friendlySuffix {} target = some suffix →
      (text?.isSome ↔ Uri.encode suffix = suffix)
  names : ∀ text, text? = some text → ∃ name target suffix, PointsTo e name target ∧
    Uri.friendlySuffix {} target = some suffix ∧ NamesEnd e name (Uri.encode suffix) text

theorem PointsTo.unique {e : Element} {name name' target target' : String}
    (h : PointsTo e name target) (h' : PointsTo e name' target') :
    name = name' ∧ target = target' := by
  have heq := (linkTarget?_eq_some_iff.mpr h).symm.trans (linkTarget?_eq_some_iff.mpr h')
  exact Prod.mk.inj (Option.some.inj heq)

theorem linkFragment?_isSome_iff (e : Element) :
    (linkFragment? e).isSome ↔ ∃ name target suffix, PointsTo e name target ∧
      Uri.friendlySuffix {} target = some suffix ∧
        (Uri.encode suffix).toList <:+ target.toList := by
  rw [Option.isSome_iff_exists]
  simp only [Profile.linkFragment?_eq_some_iff, endsWith_iff]
  constructor
  · rintro ⟨text, name, target, suffix, hpoints, hsuffix, hends, -⟩
    exact ⟨name, target, suffix, hpoints, hsuffix, hends⟩
  · rintro ⟨name, target, suffix, hpoints, hsuffix, hends⟩
    exact ⟨_, name, target, suffix, hpoints, hsuffix, hends, rfl⟩

theorem linkFragment?_isSome_iff_plain {e : Element} {name target suffix : String}
    (hpoints : PointsTo e name target) (hport : (Uri.Parts.ofString target).port = [])
    (hsuffix : Uri.friendlySuffix {} target = some suffix) :
    (linkFragment? e).isSome ↔ Uri.encode suffix = suffix := by
  rw [← Uri.encode_suffix_iff (Uri.suffix_of_port_eq_nil hport hsuffix), linkFragment?_isSome_iff]
  constructor
  · -- The element points with one attribute only, and the target has one friendly suffix.
    rintro ⟨name', target', suffix', hpoints', hsuffix', hends⟩
    obtain ⟨-, rfl⟩ := hpoints.unique hpoints'
    rw [hsuffix, Option.some.injEq] at hsuffix'
    rwa [hsuffix']
  · exact fun hends => ⟨name, target, suffix, hpoints, hsuffix, hends⟩

theorem namesEnd_of_linkFragment? {e : Element} {text : String} (h : linkFragment? e = some text) :
    ∃ name target suffix, PointsTo e name target ∧
      Uri.friendlySuffix {} target = some suffix ∧ NamesEnd e name (Uri.encode suffix) text := by
  obtain ⟨name, target, suffix, hpoints, hsuffix, hends, rfl⟩ :=
    Profile.linkFragment?_eq_some_iff.mp h
  have hne := Uri.encode_ne_empty (Uri.friendlySuffix_ne_empty hsuffix)
  have hsimple := Profile.simpleText_of_pointsTo hpoints suffix
  have hcompound := CompoundText.plain (SimplesText.single hsimple) (List.cons_ne_nil _ [])
  refine ⟨name, target, suffix, hpoints, hsuffix, hne, ofString_compound hcompound, ?_⟩
  intro t node he
  have hholds : t.meets node e
      (.attribute { name, agreement? := some (.finish, Uri.encode suffix) }) = true :=
    Profile.holds_finish hpoints.attribute?_eq hne hends
  rw [check_compound t hcompound, Tree.meetsAll_of_element? he, List.all_cons, List.all_nil,
    Bool.and_true, hholds]

/-- The feature of the link gives a text just where the encoded friendly suffix is an end of the
    target, and the text names that end. -/
theorem link_exact (p : Profile) :
    ∃ text?, Feature.link.fragment? p = .ok text? ∧ LinkExact p.element text? :=
  ⟨linkFragment? p.element, rfl, {
    isSome_iff := linkFragment?_isSome_iff p.element
    isSome_iff_plain := fun _ _ _ hpoints hport hsuffix =>
      linkFragment?_isSome_iff_plain hpoints hport hsuffix
    names := fun _ h => namesEnd_of_linkFragment? h }⟩

/-- With a `src` beside it, it is the `href` that is named. -/
theorem link_exact_href_before_src :
    let p : Profile :=
      { element := { tag := "a", attributes := .ofList [("src", "x.png"), ("href", "//docs.rs/")] }
        tag := "a"
        distinctClasses := [] }
    Feature.link.fragment? p = .ok (some "[href$=\"docs.rs/\"]") ∧
      LinkExact p.element (some "[href$=\"docs.rs/\"]") := by
  intro p
  have hfragment : Feature.link.fragment? p = .ok (some "[href$=\"docs.rs/\"]") := by
    decide +kernel
  obtain ⟨text?, htext, hexact⟩ := link_exact p
  rw [hfragment, Except.ok.injEq] at htext
  rw [← htext] at hexact
  exact ⟨hfragment, hexact⟩

/-- A percent sign is encoded once more, and so the end of the target is not named. -/
example : linkFragment? { tag := "a", attributes := .ofList [("href", "/caf%C3%A9")] } = none := by
  decide +kernel

end UniqueSelector.Synthesis
