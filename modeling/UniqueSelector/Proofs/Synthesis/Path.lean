/-
  UniqueSelector.Proofs.Synthesis.Path

  The selector in which each fragment is a child of the one before: what its text
  reads back as, and what it picks out.

    * `Selector.path` — a compound and the compounds that lead down from it.
    * `Tree.Leads`, `Tree.picks_path_iff` — the way down through children that
      meet the compounds.
    * `ofString_joinLevels` — fragments that read as compounds join to a path.
    * `ofString_joinLevels_gap` — with an empty fragment among them they do not.

  A path grows at its lower end, so the inductions run along the compounds with
  the selector read so far held general.
-/

import UniqueSelector.Proofs.Selector.Texts
import UniqueSelector.Selector.Matching
import UniqueSelector.Synthesis.Ascent

namespace UniqueSelector

open Text Selector

/-! ## What a path picks out -/

/-- The selector with further compounds below its subject, each a child of the one before. -/
def Selector.down (s : Selector) (cs : List Compound) : Selector :=
  cs.foldl (fun s c => s.extend .child c) s

/-- The selector in which each compound is a child of the one before. -/
def Selector.path (c : Compound) (cs : List Compound) : Selector :=
  Selector.down { subject := c } cs

namespace Tree

/-- From `top` the compounds lead down to `target`: a child of `top` meets the first of them,
    a child of that child the next, and so on. -/
def Leads (t : Tree) : List Compound → NodeId → NodeId → Prop
  | [], top, target => top = target
  | c :: cs, top, target =>
    ∃ x, t.parent? x = some top ∧ t.meetsAll x c = true ∧ t.Leads cs x target

theorem picks_extend_child_iff (t : Tree) (s : Selector) (c : Compound) (x : NodeId) :
    t.picks (s.extend .child c) x = true ↔
      t.meetsAll x c = true ∧ ∃ parent, t.parent? x = some parent ∧ t.picks s parent = true := by
  show (t.meetsAll x c && t.meetsChain ((.child, s.subject) :: s.chain) x) = true ↔ _
  rw [Bool.and_eq_true, meetsChain, related]
  cases t.parent? x with
  | none => simp
  | some parent => simp [picks]

theorem picks_down_iff (t : Tree) (s : Selector) (cs : List Compound) (target : NodeId) :
    t.picks (s.down cs) target = true ↔ ∃ x, t.picks s x = true ∧ t.Leads cs x target := by
  induction cs generalizing s with
  | nil =>
      constructor
      · intro h
        exact ⟨target, h, rfl⟩
      · rintro ⟨x, hx, rfl⟩
        exact hx
  | cons c cs ih =>
      show t.picks ((s.extend .child c).down cs) target = true ↔ _
      rw [ih]
      constructor
      · rintro ⟨x, hx, hleads⟩
        obtain ⟨hmeets, parent, hparent, hpicks⟩ := (picks_extend_child_iff t s c x).mp hx
        exact ⟨parent, hpicks, x, hparent, hmeets, hleads⟩
      · rintro ⟨parent, hpicks, x, hparent, hmeets, hleads⟩
        exact ⟨x, (picks_extend_child_iff t s c x).mpr ⟨hmeets, parent, hparent, hpicks⟩, hleads⟩

/-- A path picks out what its compounds lead down to from a node that meets the first. -/
theorem picks_path_iff (t : Tree) (c : Compound) (cs : List Compound) (target : NodeId) :
    t.picks (path c cs) target = true ↔ ∃ x, t.meetsAll x c = true ∧ t.Leads cs x target := by
  rw [path, picks_down_iff]
  simp only [picks_compound]

theorem isElement_of_meetsAll {t : Tree} {x : NodeId} {c : Compound} (h : t.meetsAll x c = true) :
    t.isElement x = true := by
  rw [meetsAll] at h
  rw [isElement]
  split at h
  · cases h
  · rename_i heq
    rw [heq]
    rfl

end Tree

/-! ## The text of a path -/

namespace Synthesis

/-- The text of the fragments below the first, with the gaps in front of each. -/
def gapped (fragments : List String) : List Char :=
  fragments.flatMap fun fragment => " > ".toList ++ fragment.toList

theorem gapped_cons (fragment : String) (fragments : List String) :
    gapped (fragment :: fragments) = " > ".toList ++ (fragment.toList ++ gapped fragments) := by
  rw [gapped, List.flatMap_cons, List.append_assoc]
  rfl

theorem toList_joinLevels (fragment : String) (fragments : List String) :
    (joinLevels (fragment :: fragments)).toList = fragment.toList ++ gapped fragments := by
  rw [joinLevels, String.toList_intercalate, gapped]
  induction fragments generalizing fragment with
  | nil => simp
  | cons next rest ih =>
      rw [List.map_cons, List.map_cons, List.intercalate_cons_cons, ← List.map_cons, ih next,
        List.flatMap_cons, List.append_assoc, List.append_assoc]

theorem gap_infix_joinLevels (first second : String) (rest : List String) :
    " > ".toList <:+: (joinLevels (first :: second :: rest)).toList := by
  rw [toList_joinLevels, gapped_cons]
  exact ⟨first.toList, second.toList ++ gapped rest, List.append_assoc _ _ _⟩

theorem length_lt_gapped {fragments : List String} {fragment : String} (h : fragment ∈ fragments) :
    fragment.length < (gapped fragments).length := by
  have hgap : " > ".toList.length = 3 := by decide
  induction fragments with
  | nil => cases h
  | cons first rest ih =>
      rw [gapped_cons, List.length_append, List.length_append, hgap, String.length_toList]
      rcases List.mem_cons.mp h with rfl | hrest
      · omega
      · have hlength := ih hrest
        omega

/-- A path of several levels is longer than each of its fragments. -/
theorem length_lt_joinLevels {first second fragment : String} {rest : List String}
    (h : fragment ∈ first :: second :: rest) :
    fragment.length < (joinLevels (first :: second :: rest)).length := by
  rw [← String.length_toList (s := joinLevels _), toList_joinLevels, List.length_append,
    String.length_toList]
  rcases List.mem_cons.mp h with rfl | hrest
  · have hsecond := length_lt_gapped (List.mem_cons_self : second ∈ second :: rest)
    omega
  · have hlength := length_lt_gapped hrest
    omega

theorem combinatorText_gap : CombinatorText " > ".toList .child :=
  CombinatorText.child blanks_space blanks_space

/-- The fragments are read as the compounds, one each. -/
def ReadAs (fragments : List String) (cs : List Compound) : Prop :=
  List.Forall₂ (fun fragment c => CompoundText fragment.toList c) fragments cs

theorem selectorText_gapped {fragments : List String} {cs : List Compound}
    (h : ReadAs fragments cs) {text : List Char} {s : Selector} (hs : SelectorText text s) :
    SelectorText (text ++ gapped fragments) (s.down cs) := by
  induction h generalizing text s with
  | nil =>
      rw [gapped, List.flatMap_nil, List.append_nil]
      exact hs
  | @cons fragment c fragments cs hfirst hrest ih =>
      have hall := ih (SelectorText.extend hs combinatorText_gap hfirst)
      rw [List.append_assoc, List.append_assoc, ← gapped_cons] at hall
      exact hall

theorem selectorText_joinLevels {fragment : String} {fragments : List String} {c : Compound}
    {cs : List Compound} (h : ReadAs (fragment :: fragments) (c :: cs)) :
    SelectorText (joinLevels (fragment :: fragments)).toList (path c cs) := by
  cases h with
  | cons hfirst hrest =>
      rw [toList_joinLevels]
      exact selectorText_gapped hrest (SelectorText.compound hfirst)

/-- Fragments that are read as compounds join to the path of the compounds. -/
theorem ofString_joinLevels {fragment : String} {fragments : List String} {c : Compound}
    {cs : List Compound} (h : ReadAs (fragment :: fragments) (c :: cs)) :
    Selector.ofString (joinLevels (fragment :: fragments)) = .ok (path c cs) := by
  have hread := ofList_of_selectorText blanks_nil (selectorText_joinLevels h) blanks_nil
  rw [List.append_nil, List.nil_append] at hread
  exact hread

/-! ## Gaps -/

/-- No compound can be read at the end or at a child combinator. -/
theorem takeCompound_gap {rest : List Char} (h : rest = [] ∨ ∃ cs, rest = '>' :: cs) :
    ∃ fault, takeCompound rest = .error fault := by
  have hends : EndsCompound rest := by
    rcases h with rfl | ⟨cs, rfl⟩
    · exact endsCompound_nil
    · intro c hc
      exact Or.inr (Or.inl (Option.some.inj hc).symm)
  exact ⟨_, takeCompound_of_endsCompound hends⟩

theorem skipSpace_gapped (fragments : List String) :
    skipSpace (gapped fragments) = [] ∨ ∃ cs, skipSpace (gapped fragments) = '>' :: cs := by
  cases fragments with
  | nil => exact Or.inl rfl
  | cons fragment rest =>
      rw [gapped_cons]
      exact Or.inr ⟨_, rfl⟩

theorem takeChain_gap (s : Selector) (fragments : List String) :
    ∃ fault, takeChain s (" > ".toList ++ gapped fragments) = .error fault := by
  have hcombinator : takeCombinator (" > ".toList ++ gapped fragments) =
      .ok (some (.child, skipSpace (gapped fragments))) := rfl
  obtain ⟨fault, hfault⟩ := takeCompound_gap (skipSpace_gapped fragments)
  refine ⟨fault, ?_⟩
  rw [takeChain_some hcombinator, hfault]
  rfl

/-- A selector cannot be read from fragments one of which is empty. -/
theorem ofString_joinLevels_gap {fragments rest : List String} {cs : List Compound}
    (h : ReadAs fragments cs) :
    ∃ cause, Selector.ofString (joinLevels (fragments ++ "" :: rest)) = .error cause := by
  cases h with
  | nil =>
      -- The text is empty, or the first combinator has no compound on its left.
      obtain ⟨fault, hfault⟩ := takeCompound_gap (skipSpace_gapped rest)
      have hread : Selector.takeSelector (skipSpace (gapped rest)) = .error fault := by
        rw [takeSelector, hfault]
        rfl
      rw [List.nil_append, Selector.ofString, toList_joinLevels, String.toList_empty,
        List.nil_append]
      exact exists_ofList_error hread
  | @cons fragment c fragments cs hfirst hrest =>
      -- The path up to the gap is read, and then a combinator without a compound behind it.
      have htext := selectorText_gapped hrest (SelectorText.compound hfirst)
      have hjoin : (joinLevels (fragment :: fragments ++ "" :: rest)).toList =
          (fragment.toList ++ gapped fragments) ++ (" > ".toList ++ gapped rest) := by
        rw [List.cons_append, toList_joinLevels, gapped, List.flatMap_append, List.flatMap_cons]
        simp [gapped]
      obtain ⟨d, ds, hhead, hspace⟩ := htext.head
      obtain ⟨fault, hfault⟩ := takeChain_gap (path c cs) rest
      have hskip : ∀ after, skipSpace ((fragment.toList ++ gapped fragments) ++ after) =
          (fragment.toList ++ gapped fragments) ++ after := by
        intro after
        rw [hhead, List.cons_append, skipSpace_cons hspace]
      have hends : EndsCompound (" > ".toList ++ gapped rest) := combinatorText_gap.endsCompound _
      rw [Selector.ofString, hjoin]
      apply exists_ofList_error
      rw [hskip, takeSelector_of_selectorText htext hends]
      exact hfault

end Synthesis

end UniqueSelector
