/-
  UniqueSelector.Proofs.Dom.Paths

  Paths and elements are one to one. A path is read downwards, one number after
  the other; the path of an element is written on the way up. What a path leads to
  depends on the numbers that its segments denote and on nothing else in its text.

    * `Tree.pathTo` — the path of an element.
    * `Tree.Denote` — the numbers that segments denote, one each.
    * `Tree.IsDocument.resolve_eq_ok_iff`, `Tree.IsDocument.resolve_eq_error_iff` —
      what a path leads to, and where it fails, through `Descends`.
    * `Tree.ExtraSlash` — a slash that a path can do without.
    * `Tree.Addressed` — how paths and elements go together.
    * `Tree.addressed_of_load` — loaded documents.
-/

import UniqueSelector.Dom.Path
import UniqueSelector.Proofs.Dom.Places
import UniqueSelector.Proofs.Text.Digits

namespace UniqueSelector.Tree

open Text

/-- The places of an element below the document element, with slashes between them. -/
def pathTo (t : Tree) (id : NodeId) : String :=
  "/".intercalate ((t.address id).map toString)

/-! ## Segments -/

/-- The segments denote the numbers, one each. -/
def Denote (segments : List (List Char)) (ks : List Nat) : Prop :=
  List.Forall₂ Natural segments ks

theorem Denote.unique {segments : List (List Char)} {ks ks' : List Nat} (h : Denote segments ks)
    (h' : Denote segments ks') : ks = ks' := by
  induction h generalizing ks' with
  | nil =>
      cases h'
      rfl
  | cons hk _ ih =>
      cases h' with
      | cons hk' hrest => rw [hk.unique hk', ih hrest]

theorem Denote.natural {segments : List (List Char)} {ks : List Nat} (h : Denote segments ks)
    {segment : List Char} (hmem : segment ∈ segments) : ∃ k, Natural segment k := by
  induction h with
  | nil => cases hmem
  | @cons _ k _ _ hk _ ih =>
      rcases List.mem_cons.mp hmem with rfl | hmem
      · exact ⟨k, hk⟩
      · exact ih hmem

/-- The segments in a text with a slash are those before it and those behind it. -/
theorem pathSegments_slash (before after : List Char) :
    pathSegments (String.ofList (before ++ '/' :: after)) =
      pathSegments (String.ofList before) ++ pathSegments (String.ofList after) := by
  rw [pathSegments, pathSegments, pathSegments, String.toList_ofList, String.toList_ofList,
    String.toList_ofList, List.splitOn_append_cons_self, List.filter_append]

/-- The slash between the two texts stands at an end, or beside another one. -/
def ExtraSlash (before after : List Char) : Prop :=
  before = [] ∨ before.getLast? = some '/' ∨ after = [] ∨ after.head? = some '/'

theorem pathSegments_nil : pathSegments (String.ofList []) = [] := rfl

theorem pathSegments_of_extraSlash {before after : List Char} (h : ExtraSlash before after) :
    pathSegments (String.ofList (before ++ '/' :: after)) =
      pathSegments (String.ofList (before ++ after)) := by
  -- On one side the slash cuts off an empty segment, and that is left out.
  rcases h with rfl | hlast | rfl | hfirst
  · rw [pathSegments_slash, pathSegments_nil, List.nil_append, List.nil_append]
  · obtain ⟨front, rfl⟩ := List.getLast?_eq_some_iff.mp hlast
    rw [pathSegments_slash, pathSegments_slash, pathSegments_nil, List.append_nil, List.append_assoc,
      List.singleton_append, pathSegments_slash]
  · rw [pathSegments_slash, pathSegments_nil, List.append_nil, List.append_nil]
  · obtain ⟨back, rfl⟩ := List.head?_eq_some_iff.mp hfirst
    have hback := pathSegments_slash [] back
    rw [pathSegments_nil, List.nil_append, List.nil_append] at hback
    rw [pathSegments_slash, pathSegments_slash, hback]

/-! ## Going down -/

section Down

variable {t : Tree} {path : String}

theorem resolveSegment_eq_ok_iff {current child : NodeId} {segment : List Char} :
    t.resolveSegment path current segment = .ok child ↔
      ∃ k, Natural segment k ∧ t.ChildAt current k child := by
  simp only [← natural?_eq_some_iff, ChildAt]
  unfold resolveSegment
  split
  · rename_i hnone
    simp [hnone]
  · rename_i index hindex
    split
    · rename_i hchild
      simp [hindex, hchild]
    · rename_i hchild
      simp [hindex, hchild]

/-- A segment leads nowhere if it is no number, or a number past the element children. -/
def DeadEnd (t : Tree) (current : NodeId) (segment : List Char) : Prop :=
  (∀ k, ¬ Natural segment k) ∨ ∃ k, Natural segment k ∧ (t.elementChildren current).length ≤ k

theorem resolveSegment_eq_error_iff {current : NodeId} {segment : List Char} :
    (∃ cause, t.resolveSegment path current segment = .error cause) ↔
      t.DeadEnd current segment := by
  simp only [DeadEnd, ← natural?_eq_some_iff]
  unfold resolveSegment
  split
  · rename_i hnone
    simp [hnone]
  · rename_i index hindex
    split
    · rename_i hchild
      simp [hindex, List.getElem?_eq_none_iff.mp hchild]
    · rename_i hchild
      have hlt := (List.getElem?_eq_some_iff.mp hchild).1
      simp [hindex, hlt]

/-- The segments lead down from a node by the numbers they denote. -/
theorem foldlM_eq_ok_iff (segments : List (List Char)) (start target : NodeId) :
    segments.foldlM (t.resolveSegment path) start = .ok target ↔
      ∃ ks, Denote segments ks ∧ t.Descends start ks target := by
  induction segments generalizing start with
  | nil =>
      constructor
      · intro h
        exact ⟨[], List.Forall₂.nil, Except.ok.inj h⟩
      · rintro ⟨ks, hdenote, hdescends⟩
        cases hdenote
        exact congrArg Except.ok hdescends
  | cons segment rest ih =>
      rw [List.foldlM_cons]
      constructor
      · intro h
        cases hstep : t.resolveSegment path start segment with
        | error cause =>
            rw [hstep] at h
            cases h
        | ok child =>
            rw [hstep] at h
            obtain ⟨k, hk, hchild⟩ := resolveSegment_eq_ok_iff.mp hstep
            obtain ⟨ks, hdenote, hdescends⟩ := (ih child).mp h
            exact ⟨k :: ks, List.Forall₂.cons hk hdenote, child, hchild, hdescends⟩
      · rintro ⟨ks, hdenote, hdescends⟩
        cases hdenote with
        | cons hk hrest =>
            obtain ⟨child, hchild, hdescends⟩ := hdescends
            rw [resolveSegment_eq_ok_iff.mpr ⟨_, hk, hchild⟩]
            exact (ih child).mpr ⟨_, hrest, hdescends⟩

/-- The first segment that leads nowhere ends the way down. -/
theorem foldlM_eq_error_iff (segments : List (List Char)) (start : NodeId) :
    (∃ cause, segments.foldlM (t.resolveSegment path) start = .error cause) ↔
      ∃ front segment back ks node, segments = front ++ segment :: back ∧ Denote front ks ∧
        t.Descends start ks node ∧ t.DeadEnd node segment := by
  induction segments generalizing start with
  | nil =>
      constructor
      · rintro ⟨cause, h⟩
        cases h
      · rintro ⟨front, segment, back, ks, node, hsplit, -⟩
        exact absurd hsplit.symm (by simp)
  | cons first rest ih =>
      rw [List.foldlM_cons]
      cases hstep : t.resolveSegment path start first with
      | error cause =>
          have hdead := resolveSegment_eq_error_iff.mp ⟨cause, hstep⟩
          exact iff_of_true ⟨cause, rfl⟩
            ⟨[], first, rest, [], start, rfl, List.Forall₂.nil, rfl, hdead⟩
      | ok child =>
          obtain ⟨k, hk, hchild⟩ := resolveSegment_eq_ok_iff.mp hstep
          refine (ih child).trans ⟨?_, ?_⟩
          · rintro ⟨front, segment, back, ks, node, rfl, hdenote, hdescends, hdead⟩
            exact ⟨first :: front, segment, back, k :: ks, node, rfl, List.Forall₂.cons hk hdenote,
              ⟨child, hchild, hdescends⟩, hdead⟩
          · rintro ⟨front, segment, back, ks, node, hsplit, hdenote, hdescends, hdead⟩
            cases hdenote with
            | nil =>
                -- The first segment leads to a child, so the dead end lies behind it.
                obtain rfl : start = node := hdescends
                obtain ⟨rfl, rfl⟩ := List.cons.inj hsplit
                obtain ⟨cause, herror⟩ : ∃ cause, t.resolveSegment path start first = .error cause :=
                  resolveSegment_eq_error_iff.mpr hdead
                rw [hstep] at herror
                cases herror
            | @cons _ i front ks hi hrest =>
                obtain ⟨rfl, rfl⟩ := List.cons.inj hsplit
                obtain ⟨child', hchild', hdescends⟩ := hdescends
                rw [← hk.unique hi] at hchild'
                rw [← hchild.child_unique hchild'] at hdescends
                exact ⟨front, segment, back, ks, node, rfl, hrest, hdescends, hdead⟩

end Down

/-! ## The path of an element -/

/-- Between the slashes of its path stand the digits of the places of an element. -/
theorem pathSegments_pathTo (t : Tree) (id : NodeId) :
    pathSegments (t.pathTo id) = (t.address id).map (Nat.toDigits 10) := by
  have hslash : ∀ segment ∈ (t.address id).map (Nat.toDigits 10), '/' ∉ segment := by
    intro segment hsegment hmem
    obtain ⟨k, -, rfl⟩ := List.mem_map.mp hsegment
    exact absurd (Nat.isDigit_of_mem_toDigits (by decide) (by decide) hmem) (by decide)
  have hne : ∀ segment ∈ (t.address id).map (Nat.toDigits 10), (!segment.isEmpty) = true := by
    intro segment hsegment
    obtain ⟨k, -, rfl⟩ := List.mem_map.mp hsegment
    simp [Nat.toDigits_ne_nil]
  have htext : (t.pathTo id).toList = ['/'].intercalate ((t.address id).map (Nat.toDigits 10)) := by
    rw [pathTo, String.toList_intercalate, List.map_map]
    congr 2
    funext k
    exact toList_toString_nat k
  rw [pathSegments, htext]
  -- Nothing joined is the empty text, which is cut into one empty segment.
  by_cases hempty : t.address id = []
  · rw [hempty]
    rfl
  · rw [List.splitOn_intercalate '/' hslash (by simpa using hempty), List.filter_eq_self.mpr hne]

theorem Descends.lt_size {t : Tree} (ht : t.Linked) {start target : NodeId} {ks : List Nat}
    (h : t.Descends start ks target) : ∀ k ∈ ks, k < t.size := by
  induction ks generalizing start with
  | nil => simp
  | cons i ks ih =>
      obtain ⟨child, hchild, hrest⟩ := h
      intro k hk
      rcases List.mem_cons.mp hk with rfl | hk
      · exact Nat.lt_of_lt_of_le hchild.lt_length (ht.length_elementChildren_le start)
      · exact ih hrest k hk

theorem denote_toDigits {ks : List Nat} (h : ∀ k ∈ ks, k < 2 ^ 64) :
    Denote (ks.map (Nat.toDigits 10)) ks := by
  rw [Denote, List.forall₂_map_left_iff, List.forall₂_same]
  exact fun k hk => natural_toDigits (h k hk)

/-! ## Loaded documents -/

/-- Paths and elements of the document go together. -/
structure Addressed (t : Tree) : Prop where
  resolve_pathTo : ∀ id, t.isElement id = true → t.resolve (t.pathTo id) = .ok id
  resolve_iff : ∀ path id, t.resolve path = .ok id ↔
    id ∈ t.elements ∧ Denote (pathSegments path) (t.address id)
  -- Beside a path that leads somewhere, those of the same numbers lead there too, and no others.
  resolve_same_iff : ∀ path path' id, t.resolve path = .ok id →
    (t.resolve path' = .ok id ↔
      ∃ ks, Denote (pathSegments path) ks ∧ Denote (pathSegments path') ks)
  resolve_slash : ∀ before after, ExtraSlash before after → ∀ id,
    t.resolve (String.ofList (before ++ '/' :: after)) = .ok id ↔
      t.resolve (String.ofList (before ++ after)) = .ok id
  -- The point that a number is too large at is the element that the segments before it name.
  fails_iff : ∀ path, (∃ cause, t.resolve path = .error cause) ↔
    (∃ segment ∈ pathSegments path, ∀ k, ¬ Natural segment k) ∨
      ∃ front segment back k id, pathSegments path = front ++ segment :: back ∧
        id ∈ t.elements ∧ Denote front (t.address id) ∧ Natural segment k ∧
          (t.elementChildren id).length ≤ k

namespace IsDocument

variable {t : Tree} (ht : t.IsDocument)

include ht

theorem resolve_eq (path : String) : ∃ top, t.documentElement? = some top ∧
    t.resolve path = (pathSegments path).foldlM (t.resolveSegment path) top := by
  obtain ⟨top, -, htop⟩ := ht.exists_top
  refine ⟨top, htop, ?_⟩
  rw [resolve, htop]

theorem resolve_eq_ok_iff (path : String) (id : NodeId) :
    t.resolve path = .ok id ↔ id ∈ t.elements ∧ Denote (pathSegments path) (t.address id) := by
  obtain ⟨top, htop, hresolve⟩ := ht.resolve_eq path
  rw [hresolve, foldlM_eq_ok_iff, ht.mem_elements_iff]
  simp only [ht.descends_iff htop]
  constructor
  · rintro ⟨ks, hdenote, hid, rfl⟩
    exact ⟨hid, hdenote⟩
  · rintro ⟨hid, hdenote⟩
    exact ⟨_, hdenote, hid, rfl⟩

theorem resolve_eq_error_iff (path : String) : (∃ cause, t.resolve path = .error cause) ↔
    ∃ front segment back id, pathSegments path = front ++ segment :: back ∧ id ∈ t.elements ∧
      Denote front (t.address id) ∧ t.DeadEnd id segment := by
  obtain ⟨top, htop, hresolve⟩ := ht.resolve_eq path
  rw [hresolve, foldlM_eq_error_iff]
  simp only [ht.descends_iff htop, ht.mem_elements_iff]
  constructor
  · rintro ⟨front, segment, back, ks, id, hsplit, hdenote, ⟨hid, rfl⟩, hdead⟩
    exact ⟨front, segment, back, id, hsplit, hid, hdenote, hdead⟩
  · rintro ⟨front, segment, back, id, hsplit, hid, hdenote, hdead⟩
    exact ⟨front, segment, back, _, id, hsplit, hdenote, ⟨hid, rfl⟩, hdead⟩

theorem denote_pathTo (hsize : t.size ≤ 2 ^ 64) {id : NodeId} (hid : t.isElement id = true) :
    Denote (pathSegments (t.pathTo id)) (t.address id) := by
  obtain ⟨top, -, htop⟩ := ht.exists_top
  have hdescends := (ht.descends_iff htop (t.address id) id).mpr ⟨hid, rfl⟩
  rw [pathSegments_pathTo]
  exact denote_toDigits fun k hk => Nat.lt_of_lt_of_le (hdescends.lt_size ht.linked k hk) hsize

/-- A segment that is no number is never passed. -/
theorem exists_error_of_not_natural {path : String} {segment : List Char}
    (hmem : segment ∈ pathSegments path) (hnone : ∀ k, ¬ Natural segment k) :
    ∃ cause, t.resolve path = .error cause := by
  cases hresolve : t.resolve path with
  | error cause => exact ⟨cause, rfl⟩
  | ok id =>
      obtain ⟨k, hk⟩ := ((ht.resolve_eq_ok_iff path id).mp hresolve).2.natural hmem
      exact absurd hk (hnone k)

theorem addressed (hsize : t.size ≤ 2 ^ 64) : t.Addressed where
  resolve_pathTo := fun id hid =>
    (ht.resolve_eq_ok_iff _ id).mpr ⟨(ht.mem_elements_iff id).mpr hid, ht.denote_pathTo hsize hid⟩
  resolve_iff := ht.resolve_eq_ok_iff
  resolve_same_iff := by
    intro path path' id hpath
    obtain ⟨hid, hdenote⟩ := (ht.resolve_eq_ok_iff path id).mp hpath
    rw [ht.resolve_eq_ok_iff path' id]
    constructor
    · rintro ⟨-, hdenote'⟩
      exact ⟨_, hdenote, hdenote'⟩
    · rintro ⟨ks, hks, hdenote'⟩
      obtain rfl := hks.unique hdenote
      exact ⟨hid, hdenote'⟩
  resolve_slash := by
    intro before after hextra id
    rw [ht.resolve_eq_ok_iff, ht.resolve_eq_ok_iff, pathSegments_of_extraSlash hextra]
  fails_iff := by
    intro path
    constructor
    · intro h
      obtain ⟨front, segment, back, id, hsplit, hid, hdenote, hdead⟩ :=
        (ht.resolve_eq_error_iff path).mp h
      rcases hdead with hnone | ⟨k, hk, hlarge⟩
      · exact Or.inl ⟨segment, by rw [hsplit]; simp, hnone⟩
      · exact Or.inr ⟨front, segment, back, k, id, hsplit, hid, hdenote, hk, hlarge⟩
    · rintro (⟨segment, hmem, hnone⟩ | ⟨front, segment, back, k, id, hsplit, hid, hdenote, hk, hlarge⟩)
      · exact ht.exists_error_of_not_natural hmem hnone
      · exact (ht.resolve_eq_error_iff path).mpr
          ⟨front, segment, back, id, hsplit, hid, hdenote, Or.inr ⟨k, hk, hlarge⟩⟩

end IsDocument

/-- In a loaded document the path of an element leads to it, and a path leads to the element whose
    places its segments denote. It leads nowhere just if a segment is no number or one that is too
    large where it stands. -/
theorem addressed_of_load {markup : Markup} {json : String} {t : Tree}
    (hload : load markup json = .ok t) (hsize : t.FitsMemory) : t.Addressed := by
  have ht := isDocument_of_load hload
  refine ht.addressed ?_
  rw [FitsMemory] at hsize
  omega

/-- The one element of a paragraph stands behind a text, and has the number zero. -/
theorem addressed_of_load_behind_text :
    let json := "\x7b\"tag\":\"p\",\"children\":[\"one\",\x7b\"tag\":\"b\"\x7d]\x7d"
    ∃ t, load .html json = .ok t ∧ t.FitsMemory ∧ t.Addressed ∧ t.pathTo 3 = "0" ∧
      t.resolve "//+00" = .ok 3 := by
  intro json
  have htokens : Json.tokens? json.toList = some
      [.openObject, .text "tag", .colon, .text "p", .comma, .text "children", .colon, .openArray,
        .text "one", .comma, .openObject, .text "tag", .colon, .text "b", .closeObject, .closeArray,
        .closeObject] := by
    subst json
    decide +kernel
  have hload : load .html json =
      .ok (ofSketch .html (.element { tag := "p" } [.text "one", .element { tag := "b" } []])) := by
    rw [load, Json.ofString?, htokens]
    rfl
  have hsize : FitsMemory
      (ofSketch .html (.element { tag := "p" } [.text "one", .element { tag := "b" } []])) := by
    rw [FitsMemory]
    decide
  exact ⟨_, hload, hsize, addressed_of_load hload hsize, by decide, rfl⟩

end UniqueSelector.Tree
