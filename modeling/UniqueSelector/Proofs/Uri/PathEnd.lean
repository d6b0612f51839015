/-
  UniqueSelector.Proofs.Uri.PathEnd

  Where the path end of a target begins. The slashes of the path are tried from
  the last one on, and what follows the first that has two code units behind it
  is taken. The rests behind the slashes are all ends of the path, so the one
  taken is the shortest of those that are long enough.

    * `Stretch`, `ShortestStretch` — what may be taken, and what is.
    * `Parts.pathEnd_cases` — the path end is the shortest stretch of the path,
      or the whole path where it has none.
    * `Parts.pathEnd_exact` — no other text is, and no path end is empty but that
      of an empty path.
-/

import UniqueSelector.Uri.Parts

namespace UniqueSelector.Uri

open Text

/-- `s` directly follows a slash of `path`, and is two code units long at least. -/
structure Stretch (path s : List Char) : Prop where
  behind : ∃ before, path = before ++ '/' :: s
  long : 2 ≤ listUnits s

/-- `s` is a stretch of `path`, and no other is shorter. -/
structure ShortestStretch (path s : List Char) : Prop extends Stretch path s where
  shortest : ∀ t, Stretch path t → s.length ≤ t.length

theorem stretch_iff_mem_tailsAfter {path s : List Char} :
    Stretch path s ↔ s ∈ tailsAfter '/' path ∧ 2 ≤ listUnits s := by
  rw [mem_tailsAfter_iff]
  exact ⟨fun h => ⟨h.behind, h.long⟩, fun h => ⟨h.1, h.2⟩⟩

theorem Stretch.suffix {path s : List Char} (h : Stretch path s) : s <:+ path :=
  suffix_of_mem_tailsAfter (stretch_iff_mem_tailsAfter.mp h).1

theorem Stretch.ne_nil {path s : List Char} (h : Stretch path s) : s ≠ [] := by
  rintro rfl
  exact absurd h.long (by decide)

/-- Two ends of one path that are equally long are the same. -/
theorem ShortestStretch.unique {path s t : List Char} (hs : ShortestStretch path s)
    (ht : ShortestStretch path t) : s = t := by
  have hle := hs.shortest t ht.toStretch
  have hge := ht.shortest s hs.toStretch
  have hsuffix := List.suffix_of_suffix_length_le hs.suffix ht.suffix hle
  exact hsuffix.eq_of_length (Nat.le_antisymm hle hge)

namespace Parts

/-- What the search for the path end comes to. -/
theorem pathEnd_cases (p : Parts) :
    ShortestStretch p.path p.pathEnd ∨ (∀ t, ¬ Stretch p.path t) ∧ p.pathEnd = p.path := by
  rw [pathEnd]
  cases hfind : (tailsAfter '/' p.path).reverse.find? (2 ≤ listUnits ·) with
  | none =>
    refine Or.inr ⟨fun t ht => ?_, rfl⟩
    obtain ⟨hmem, hlong⟩ := stretch_iff_mem_tailsAfter.mp ht
    have hshort := List.find?_eq_none.mp hfind t (List.mem_reverse.mpr hmem)
    exact hshort (decide_eq_true hlong)
  | some s =>
    have hmem := List.mem_reverse.mp (List.mem_of_find?_eq_some hfind)
    have hlong : 2 ≤ listUnits s := by simpa using List.find?_some hfind
    refine Or.inl ⟨stretch_iff_mem_tailsAfter.mpr ⟨hmem, hlong⟩, fun t ht => ?_⟩
    obtain ⟨htmem, htlong⟩ := stretch_iff_mem_tailsAfter.mp ht
    exact (suffix_of_find?_tailsAfter hfind htmem (decide_eq_true htlong)).length_le

/-- The path end is an end of the path. -/
theorem pathEnd_suffix (p : Parts) : p.pathEnd <:+ p.path := by
  rcases p.pathEnd_cases with hstretch | ⟨-, hwhole⟩
  · exact hstretch.suffix
  · exact hwhole ▸ List.suffix_rfl

theorem pathEnd_eq_iff {p : Parts} {s : List Char} :
    p.pathEnd = s ↔ ShortestStretch p.path s ∨ (∀ t, ¬ Stretch p.path t) ∧ s = p.path := by
  constructor
  · rintro rfl
    exact p.pathEnd_cases
  · rintro (hs | ⟨hnone, rfl⟩)
    · rcases p.pathEnd_cases with hstretch | ⟨hnone, -⟩
      · exact hstretch.unique hs
      · exact absurd hs.toStretch (hnone s)
    · rcases p.pathEnd_cases with hstretch | ⟨-, hwhole⟩
      · exact absurd hstretch.toStretch (hnone _)
      · exact hwhole

theorem pathEnd_eq_nil_iff {p : Parts} : p.pathEnd = [] ↔ p.path = [] := by
  constructor
  · intro hnil
    rcases p.pathEnd_cases with hstretch | ⟨-, hwhole⟩
    · exact absurd hnil hstretch.ne_nil
    · rw [← hwhole, hnil]
  · intro hnil
    exact List.suffix_nil.mp (hnil ▸ p.pathEnd_suffix)

/-- The path end is the shortest end of the path that directly follows a slash and is two code
    units long at least, and the whole path where no end is such; only an empty path has an empty
    one. -/
theorem pathEnd_exact (p : Parts) :
    (∀ s, p.pathEnd = s ↔
      ShortestStretch p.path s ∨ (∀ t, ¬ Stretch p.path t) ∧ s = p.path) ∧
      p.pathEnd <:+ p.path ∧ (p.pathEnd = [] ↔ p.path = []) :=
  ⟨fun _ => pathEnd_eq_iff, p.pathEnd_suffix, pathEnd_eq_nil_iff⟩

-- One letter behind the last slash is too short, one character of two code units is not.
example : (ofString "/docs/a/b").pathEnd = "a/b".toList := by decide
example : (ofString "/docs/a/𝔟").pathEnd = "𝔟".toList := by decide

end Parts

end UniqueSelector.Uri
