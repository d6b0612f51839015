/-
  UniqueSelector.Proofs.Synthesis.NonInterference

  The search sees no more of a document than twins have in common: it gives the
  same selector, or fails with the same error, for an element and for its like.

  The two searches run in step (`Agree`). What a step does is one of a few
  questions to the host, each about a text that the two documents answer alike,
  and the level it leads to is the level above in both (`agree_step`). The climbs
  are bounded by the sizes of the documents, which may differ; the run lemma
  (`agree_climb`) holds for any two bounds that the ways up fit in.
-/

import UniqueSelector.Proofs.Synthesis.Observed
import UniqueSelector.Proofs.Synthesis.Soundness

namespace UniqueSelector.Synthesis

open Identifier

/-! ## Two searches in step -/

/-- The searches fail with the same error, or end with `a` and `g a`. -/
def Agree {α β : Type} (g : α → β) (x : Search WarningLog α) (x' : Search WarningLog β) : Prop :=
  ∃ r, Answers x r ∧ Answers x' (r.map g)

section Rules

variable {α β γ δ : Type}

theorem agree_pure (g : α → β) (a : α) : Agree g (pure a) (pure (g a)) :=
  ⟨.ok a, answers_pure a, answers_pure (g a)⟩

theorem agree_of_answers {x x' : Search WarningLog α} {r : Except SynthesisError α}
    (h : Answers x r) (h' : Answers x' r) : Agree id x x' := by
  refine ⟨r, h, ?_⟩
  cases r with
  | error cause => exact h'
  | ok a => exact h'

theorem Agree.bind_ok {k : γ → δ} {x : Search WarningLog α} {x' : Search WarningLog β} {a : α}
    {b : β} {next : α → Search WarningLog γ} {next' : β → Search WarningLog δ}
    (hx : Answers x (.ok a)) (hx' : Answers x' (.ok b)) (hnext : Agree k (next a) (next' b)) :
    Agree k (x >>= next) (x' >>= next') := by
  obtain ⟨r, hrest, hrest'⟩ := hnext
  exact ⟨r, hx.bind hrest, hx'.bind hrest'⟩

theorem Agree.bind_error {k : γ → δ} {x : Search WarningLog α} {x' : Search WarningLog β}
    {cause : SynthesisError} {next : α → Search WarningLog γ} {next' : β → Search WarningLog δ}
    (hx : Answers x (.error cause)) (hx' : Answers x' (.error cause)) :
    Agree k (x >>= next) (x' >>= next') :=
  ⟨.error cause, hx.bind_error, hx'.bind_error⟩

theorem Agree.bind {g : α → β} {k : γ → δ} {x : Search WarningLog α} {x' : Search WarningLog β}
    {next : α → Search WarningLog γ} {next' : β → Search WarningLog δ} (hx : Agree g x x')
    (hnext : ∀ a, Answers x (.ok a) → Agree k (next a) (next' (g a))) :
    Agree k (x >>= next) (x' >>= next') := by
  obtain ⟨r, h, h'⟩ := hx
  cases r with
  | error cause => exact Agree.bind_error h h'
  | ok a => exact Agree.bind_ok h h' (hnext a h)

end Rules

/-! ## Profiles -/

/-- The profiles say the same, as far as features are read off them. -/
structure Profile.Alike (markup : Markup) (p p' : Profile) : Prop where
  element : p.element.Alike markup p'.element
  tag : p'.tag = p.tag
  distinctClasses : p'.distinctClasses = p.distinctClasses

namespace Profile.Alike

variable {markup : Markup} {p p' : Profile} (h : p.Alike markup p')

include h

theorem linkFragment?_eq : linkFragment? p'.element = linkFragment? p.element := by
  have htarget : linkTarget? p'.element = linkTarget? p.element := by
    rw [linkTarget?, linkTarget?, h.element.attribute? "href" (by decide),
      h.element.attribute? "src" (by decide)]
  rw [linkFragment?, linkFragment?, htarget]

/-- Every feature is read off what the profiles have in common. -/
theorem fragment?_eq (f : Feature) : f.fragment? p' = f.fragment? p := by
  have hcustom : p'.isCustom = p.isCustom := by rw [isCustom, isCustom, h.tag]
  have hgeneric : p'.isGeneric = p.isGeneric := by rw [isGeneric, isGeneric, h.tag]
  cases f with
  | customTag => rw [Feature.fragment?, Feature.fragment?, hcustom, h.tag]
  | role =>
      rw [Feature.fragment?, Feature.fragment?, h.element.attribute? "role" (by decide)]
  | tellingTag =>
      rw [Feature.fragment?, Feature.fragment?, Feature.tellingTagFragment?,
        Feature.tellingTagFragment?, hcustom, hgeneric, h.tag,
        h.element.attribute? "type" (by decide)]
  | name =>
      rw [Feature.fragment?, Feature.fragment?, h.element.hasAttribute (by decide),
        h.element.attribute? "name" (by decide)]
  | classes => rw [Feature.fragment?, Feature.fragment?, h.distinctClasses]
  | link => rw [Feature.fragment?, Feature.fragment?, h.linkFragment?_eq]
  | genericTag => rw [Feature.fragment?, Feature.fragment?, hgeneric, h.tag]

theorem gather_eq (features : List Feature) (budget : Nat) (fragments : List String) :
    p'.gather features budget fragments = p.gather features budget fragments := by
  induction features generalizing budget fragments with
  | nil => rfl
  | cons f rest ih =>
      cases budget with
      | zero => rfl
      | succ budget =>
          rw [gather, gather, h.fragment?_eq]
          simp only [ih]

theorem describe_eq (budget : Nat) : p'.describe budget = p.describe budget := by
  rw [describe, describe, h.gather_eq]

end Profile.Alike

/-- The state of the climb at the like of its element. -/
def Ascent.moved (f : NodeId → NodeId) (a : Ascent) : Ascent :=
  { a with node := f a.node }

/-- What a level leads to, at the like of its element. -/
def Step.moved (f : NodeId → NodeId) : Step → Step
  | .climb next => .climb (next.moved f)
  | .done selector => .done selector

/-! ## Siblings -/

theorem isElement_of_mem_others {t : Tree} (x : NodeId) :
    ∀ y ∈ others t x, t.isElement y = true := by
  intro y hy
  exact Tree.isElement_of_mem_elementSiblings (List.mem_of_mem_filter hy)

section Documents

variable {t t' : Tree} {f : NodeId → NodeId} (h : t.TwinDocuments t' f)

include h

theorem others_twin {x : NodeId} (hx : t.isElement x = true) :
    (t'.elementSiblings (f x)).filter (· != f x) = (others t x).map f := by
  rw [others, h.elementSiblings hx, List.filter_map]
  refine congrArg (List.map f) (List.filter_congr fun y hy => ?_)
  have hy := Tree.isElement_of_mem_elementSiblings hy
  rw [Function.comp_apply, Bool.eq_iff_iff, bne_iff_ne, bne_iff_ne, not_iff_not]
  exact ⟨h.injective y x hy hx, congrArg f⟩

theorem any_hasClass_twin {ids : List NodeId} (hids : ∀ y ∈ ids, t.isElement y = true)
    (name : String) : ((ids.map f).filterMap t'.element?).any (·.hasClass name) =
      (ids.filterMap t.element?).any (·.hasClass name) := by
  induction ids with
  | nil => rfl
  | cons y ids ih =>
      obtain ⟨e, he⟩ := (t.isElement_iff y).mp (hids y List.mem_cons_self)
      obtain ⟨e', he', halike⟩ := h.exists_element? he
      rw [List.map_cons, List.filterMap_cons_some he', List.filterMap_cons_some he, List.any_cons,
        List.any_cons, halike.hasClass, ih fun z hz => hids z (List.mem_cons_of_mem y hz)]

theorem distinctClasses_twin {x : NodeId} (hx : t.isElement x = true) {e e' : Element}
    (halike : e.Alike t.markup e') : t'.distinctClasses (f x) e' = t.distinctClasses x e := by
  rw [Tree.distinctClasses, Tree.distinctClasses, others_twin h hx, halike.classes]
  refine List.filter_congr fun name _ => ?_
  rw [any_hasClass_twin h (isElement_of_mem_others x)]
  rfl

theorem placeFragment_twin {x : NodeId} (hx : t.isElement x = true) :
    placeFragment t' (f x) = placeFragment t x := by
  have hplace : (t'.elementSiblings (f x)).idxOf? (f x) = (t.elementSiblings x).idxOf? x := by
    rw [h.elementSiblings hx]
    refine Tree.idxOf?_map fun y hy hyx => ?_
    exact h.injective y x (Tree.isElement_of_mem_elementSiblings hy) hx hyx
  rw [placeFragment, placeFragment, hplace]

theorem topMark_twin {x : NodeId} (hx : t.isElement x = true) (fragment : String)
    (isUnique : Bool) : topMark t' (f x) fragment isUnique = topMark t x fragment isUnique := by
  rw [topMark, topMark, h.documentElement?_beq hx]

theorem advance_twin {a : Ascent} (hnode : t.isElement a.node = true) (fragment : String)
    (isUnique goesOn : Bool) : (a.moved f).advance t' fragment isUnique goesOn =
      (a.advance t fragment isUnique goesOn).moved f := by
  rw [Ascent.advance, Ascent.advance, Ascent.moved, h.parentElement? hnode]
  cases t.parentElement? a.node with
  | none => rfl
  | some parent =>
      dsimp only [Option.map_some]
      split
      · rfl
      · rfl

theorem ofNode?_twin {x : NodeId} (hx : t.isElement x = true) :
    (∃ cause, Profile.ofNode? t x = .error cause ∧ Profile.ofNode? t' (f x) = .error cause) ∨
      ∃ p p', Profile.ofNode? t x = .ok (some p) ∧ Profile.ofNode? t' (f x) = .ok (some p') ∧
        p.Alike t.markup p' := by
  obtain ⟨e, he⟩ := (t.isElement_iff x).mp hx
  obtain ⟨e', he', halike⟩ := h.exists_element? he
  have hname : e'.selectorName t'.markup = e.selectorName t.markup := by
    rw [h.markup]
    exact halike.selectorName
  rw [Profile.ofNode?, Profile.ofNode?, he, he']
  dsimp only
  rw [hname, distinctClasses_twin h hx halike]
  cases escape (e.selectorName t.markup) with
  | error cause => exact Or.inl ⟨cause, rfl, rfl⟩
  | ok tag => exact Or.inr ⟨_, _, rfl, rfl, halike, rfl, rfl⟩

/-! ## Questions -/

section Question

variable {text : String} (htext : Observed text)

include htext

theorem agree_picksAny {ids : List NodeId} (hids : ∀ y ∈ ids, t.isElement y = true) :
    Agree id (picksAny (Host.ofTree t) text ids) (picksAny (Host.ofTree t') text (ids.map f)) := by
  induction ids with
  | nil => exact agree_pure id false
  | cons y ids ih =>
      have hfirst := answers_picksOut t' (f y) text
      rw [check_twin h htext (hids y List.mem_cons_self)] at hfirst
      rw [List.map_cons, picksAny, picksAny]
      refine Agree.bind (agree_of_answers (answers_picksOut t y text) hfirst) fun picked _ => ?_
      cases picked with
      | true => exact agree_pure id true
      | false => exact ih fun z hz => hids z (List.mem_cons_of_mem y hz)

theorem agree_becomesUnique (known : Bool) :
    Agree id (becomesUnique (Host.ofTree t) known text)
      (becomesUnique (Host.ofTree t') known text) := by
  have hthere := answers_becomesUnique t' known text
  rw [length_find_twin h htext] at hthere
  exact agree_of_answers (answers_becomesUnique t known text) hthere

theorem agree_tieBreaker {x : NodeId} (hx : t.isElement x = true) :
    Agree id (tieBreaker (Host.ofTree t) t x text) (tieBreaker (Host.ofTree t') t' (f x) text) := by
  have hothers : (t.elementSiblings x).filter (· != x) = others t x := rfl
  rw [tieBreaker, tieBreaker, others_twin h hx, placeFragment_twin h hx, hothers]
  refine Agree.bind (agree_picksAny h htext (isElement_of_mem_others x)) fun shared _ => ?_
  cases shared with
  | true => exact agree_pure id (placeFragment t x)
  | false => exact agree_pure id ""

end Question

theorem agree_idSelector? {x : NodeId} (hx : t.isElement x = true) :
    Agree id (idSelector? (Host.ofTree t) t x) (idSelector? (Host.ofTree t') t' (f x)) := by
  have hattribute : t'.attribute? (f x) "id" = t.attribute? x "id" := by
    obtain ⟨e, he⟩ := (t.isElement_iff x).mp hx
    obtain ⟨e', he', halike⟩ := h.exists_element? he
    rw [Tree.attribute?, Tree.attribute?, he, he']
    exact halike.attribute? "id" (by decide)
  cases hid : (t.attribute? x "id").filter (· != "") with
  | none =>
      rw [idSelector?, idSelector?, hattribute, hid]
      exact agree_pure id none
  | some value =>
      have hid' := hid
      rw [← hattribute] at hid'
      cases hescaped : escape value with
      | error cause =>
          exact agree_of_answers (answers_idSelector?_error hid hescaped)
            (answers_idSelector?_error hid' hescaped)
      | ok escaped =>
          by_cases hvolatile : Text.contains ("#" ++ escaped) volatileIdMark = true
          · exact agree_of_answers (answers_idSelector?_volatile hid hescaped hvolatile)
              (answers_idSelector?_volatile hid' hescaped hvolatile)
          · rw [Bool.not_eq_true] at hvolatile
            have hne : value ≠ "" := by simpa using (Option.filter_eq_some_iff.mp hid).2
            have hthere := answers_idSelector?_steady hid' hescaped hvolatile
            rw [length_find_twin h (observed_idSelector hescaped hne)] at hthere
            exact agree_of_answers (answers_idSelector?_steady hid hescaped hvolatile) hthere

/-! ## Levels -/

theorem agree_describeLevel {a : Ascent} (hnode : t.isElement a.node = true) {p p' : Profile}
    (hp : Profile.ofNode? t a.node = .ok (some p)) (halike : p.Alike t.markup p') :
    Agree id (describeLevel (Host.ofTree t) t a p)
      (describeLevel (Host.ofTree t') t' (a.moved f) p') := by
  rw [describeLevel, describeLevel, halike.describe_eq]
  cases htext : p.describe (max a.featureCount 1) with
  | error cause =>
      exact Agree.bind_error (answers_liftEscape_error rfl) (answers_liftEscape_error htext)
  | ok text =>
      have hobserved := observed_describe hp htext
      refine Agree.bind_ok (answers_liftEscape rfl) (answers_liftEscape htext) ?_
      refine Agree.bind (agree_tieBreaker h hobserved hnode) fun place hplace => ?_
      have hfragment := observed_fragment hp htext hplace
      refine Agree.bind (agree_becomesUnique h hfragment a.isUnique) fun isUnique _ => ?_
      have hmark := answers_topMark t' (f a.node) (text ++ place) isUnique
      rw [topMark_twin h hnode] at hmark
      exact agree_of_answers (answers_topMark t a.node (text ++ place) isUnique) hmark

/-- The step lemma: a step at the like of an element leads to the like of what it leads to. -/
theorem agree_step {a : Ascent} (hnode : t.isElement a.node = true) :
    Agree (Step.moved f) (a.step (Host.ofTree t) t) ((a.moved f).step (Host.ofTree t') t') := by
  rw [Ascent.step, Ascent.step]
  refine Agree.bind (agree_idSelector? h hnode) fun selector? _ => ?_
  cases selector? with
  | some selector =>
      dsimp only [id]
      rw [advance_twin h hnode]
      exact agree_pure (Step.moved f) _
  | none =>
      rcases ofNode?_twin h hnode with
        ⟨cause, hp, hp'⟩ | ⟨p, p', hp, hp', halike⟩
      · exact Agree.bind_error (answers_liftEscape_error hp) (answers_liftEscape_error hp')
      · -- Each search has a profile of its own, so the level is compared behind it.
        refine Agree.bind_ok (answers_liftEscape hp) (answers_liftEscape hp') ?_
        refine Agree.bind (agree_describeLevel h hnode hp halike) fun level _ => ?_
        dsimp only [id]
        rw [advance_twin h hnode]
        exact agree_pure (Step.moved f) _

/-! ## The climb -/

/-- The run lemma. -/
theorem agree_climb {bound bound' : Nat} {a : Ascent}
    (hbound : (t.ancestors a.node).length < bound)
    (hbound' : (t'.ancestors (a.moved f).node).length < bound')
    (hnode : t.isElement a.node = true) :
    Agree id (climb (Host.ofTree t) t bound a)
      (climb (Host.ofTree t') t' bound' (a.moved f)) := by
  induction bound generalizing bound' a with
  | zero => cases hbound
  | succ bound ih =>
      obtain ⟨bound', rfl⟩ := Nat.exists_eq_succ_of_ne_zero (Nat.ne_zero_of_lt hbound')
      rw [climb, climb]
      refine Agree.bind (agree_step h hnode) fun step hstep => ?_
      cases step with
      | done selector => exact agree_pure id selector
      | climb next =>
          -- Both climbs go on at a parent, so both ways up get shorter.
          obtain ⟨parent, fragment, isUnique, hparent, rfl⟩ := Climbs.eq_above hstep hnode
          have hparent' := h.parentElement? hnode
          rw [hparent] at hparent'
          exact ih (length_ancestors_above h.left.linked hparent hbound)
            (length_ancestors_above (a := a.moved f) h.right.linked hparent' hbound')
            (parent?_of_parentElement? hparent).2

end Documents

/-- Two documents that are twins give the same answer for an element and for its like. -/
theorem synthesizeIn_noninterference {markup : Markup} {json json' : String} {t t' : Tree}
    (hload : Tree.load markup json = .ok t) (hload' : Tree.load markup json' = .ok t')
    {f : NodeId → NodeId} (h : t.Twins t' f) {x : NodeId} (hx : t.isElement x = true)
    (options : Options) (log log' : WarningLog) :
    ((synthesizeIn t' (some (f x)) options).run log').1 =
      ((synthesizeIn t (some x) options).run log).1 := by
  have hdocuments : t.TwinDocuments t' f :=
    { h with
      left := Tree.isDocument_of_load hload
      right := Tree.isDocument_of_load hload'
      markup := by rw [Tree.markup_of_load hload, Tree.markup_of_load hload'] }
  have hx' := h.isElement x hx
  obtain ⟨r, hanswer, hanswer'⟩ := agree_climb hdocuments (a := Ascent.start x options)
    (length_ancestors_lt_size hdocuments.left.linked hx)
    (length_ancestors_lt_size hdocuments.right.linked hx') hx
  rw [synthesizeIn, synthesizeIn, synthesize_eq _ hx, synthesize_eq _ hx', hanswer log]
  have hsame := hanswer' log'
  cases r with
  | error cause => exact hsame
  | ok selector => exact hsame

theorem synthesizeIn_noninterference_renumbered :
    let json := "\x7b\"tag\":\"ul\",\"children\":[\"x\"," ++
      "\x7b\"tag\":\"li\",\"attrs\":\x7b\"class\":\"a b\"\x7d\x7d,\x7b\"tag\":\"li\"\x7d]\x7d"
    let json' := "\x7b\"tag\":\"UL\",\"children\":[" ++
      "\x7b\"tag\":\"Li\",\"attrs\":\x7b\"class\":\" a  b a\",\"lang\":\"\"\x7d," ++
      "\"children\":[\"y\"]\x7d,\x7b\"tag\":\"li\"\x7d]\x7d"
    let t := Tree.ofSketch .html (.element { tag := "ul" }
      [.text "x", .element { tag := "li", attributes := .ofList [("class", "a b")] } [],
        .element { tag := "li" } []])
    let t' := Tree.ofSketch .html (.element { tag := "UL" }
      [.element { tag := "Li", attributes := .ofList [("class", " a  b a"), ("lang", "")] }
        [.text "y"], .element { tag := "li" } []])
    let f := fun x => if x = 3 then 2 else x
    Tree.load .html json = .ok t ∧ Tree.load .html json' = .ok t' ∧ t.Twins t' f ∧
      t.isElement 3 = true ∧
      ((synthesizeIn t' (some (f 3)) {}).run {}).1 = ((synthesizeIn t (some 3) {}).run {}).1 := by
  intro json json' t t' f
  have hload : Tree.load .html json = .ok t := by decide +kernel
  have hload' : Tree.load .html json' = .ok t' := by decide +kernel
  have helement : ∀ x, t.isElement x = true → x = 1 ∨ x = 3 ∨ x = 4 := by
    have hnodes : ∀ x < 5, t.isElement x = true → x = 1 ∨ x = 3 ∨ x = 4 := by decide
    intro x hx
    exact hnodes x (Tree.lt_size_of_isElement hx) hx
  have helement' : ∀ y, t'.isElement y = true → y = 1 ∨ y = 2 ∨ y = 4 := by
    have hnodes : ∀ y < 5, t'.isElement y = true → y = 1 ∨ y = 2 ∨ y = 4 := by decide
    intro y hy
    exact hnodes y (Tree.lt_size_of_isElement hy) hy
  have htwins : t.Twins t' f :=
    { isElement := by
        intro x hx
        rcases helement x hx with rfl | rfl | rfl <;> rfl
      injective := by
        intro x y hx hy
        rcases helement x hx with rfl | rfl | rfl <;> rcases helement y hy with rfl | rfl | rfl <;>
          decide
      surjective := by
        intro y hy
        rcases helement' y hy with rfl | rfl | rfl
        · exact ⟨1, rfl, rfl⟩
        · exact ⟨3, rfl, rfl⟩
        · exact ⟨4, rfl, rfl⟩
      documentElement? := rfl
      elementChildren := by
        intro x hx
        rcases helement x hx with rfl | rfl | rfl <;> rfl
      alike := by
        intro x e e' he he'
        rcases helement x ((t.isElement_iff x).mpr ⟨e, he⟩) with rfl | rfl | rfl
        all_goals
          cases he
          cases he'
          exact ⟨by decide +kernel, by decide +kernel, by decide +kernel⟩ }
  exact ⟨hload, hload', htwins, rfl,
    synthesizeIn_noninterference hload hload' htwins rfl {} {} {}⟩

end UniqueSelector.Synthesis
