/-
  UniqueSelector.Text.Cut

  Cutting a list of characters at a separator. A cut loses nothing: the pieces
  and the separator, put together again, are the whole. It is made at the first
  occurrence, and that pins it down. The cut at a single character is that of
  `takeWhile` and `dropWhile`.

  * `cutAt?` — before and after the first occurrence of a block.
  * `beforeLast?` — what stands before the last occurrence of a character.
  * `tailsAfter` — what stands after each occurrence, the longest first.
-/

namespace UniqueSelector.Text

/-- What stands before and after the first occurrence of `sep`. -/
def cutAt? (sep : List Char) : List Char → Option (List Char × List Char)
  | [] => if sep.isEmpty then some ([], []) else none
  | c :: cs =>
    match sep.isPrefixOf? (c :: cs) with
    | some after => some ([], after)
    | none => (cutAt? sep cs).map fun (before, after) => (c :: before, after)

/-- What stands before the last `c`. -/
def beforeLast? (c : Char) : List Char → Option (List Char)
  | [] => none
  | d :: ds =>
    match beforeLast? c ds with
    | some before => some (d :: before)
    | none => if d == c then some [] else none

/-- The rests that follow each `c`, the longest first. -/
def tailsAfter (c : Char) : List Char → List (List Char)
  | [] => []
  | d :: ds => if d == c then ds :: tailsAfter c ds else tailsAfter c ds

/-! ## The first occurrence of a character -/

/-- The text is empty, or the character stands in front of it. -/
def LedBy (c : Char) (s : List Char) : Prop :=
  s = [] ∨ ∃ rest, s = c :: rest

theorem ledBy_dropWhile_ne (c : Char) (s : List Char) : LedBy c (s.dropWhile (· != c)) := by
  induction s with
  | nil => exact Or.inl rfl
  | cons d ds ih =>
    by_cases hd : d = c
    · subst hd
      exact Or.inr ⟨ds, List.dropWhile_cons_of_neg (by simp)⟩
    · rw [List.dropWhile_cons_of_pos (by simpa using hd)]
      exact ih

theorem not_mem_takeWhile_ne (c : Char) (s : List Char) : c ∉ s.takeWhile (· != c) := by
  intro h
  simpa using List.all_eq_true.mp List.all_takeWhile c h

/-- What stands before the first occurrence, and what begins with it. -/
theorem cutBefore_iff {c : Char} {s before rest : List Char} :
    (s.takeWhile (· != c) = before ∧ s.dropWhile (· != c) = rest) ↔
      s = before ++ rest ∧ c ∉ before ∧ LedBy c rest := by
  constructor
  · rintro ⟨rfl, rfl⟩
    exact ⟨List.takeWhile_append_dropWhile.symm, not_mem_takeWhile_ne c s, ledBy_dropWhile_ne c s⟩
  · rintro ⟨rfl, hbefore, hrest⟩
    have hkept : ∀ d ∈ before, (d != c) = true := by
      intro d hd
      simpa using ne_of_mem_of_not_mem hd hbefore
    rw [List.takeWhile_append_of_pos hkept, List.dropWhile_append_of_pos hkept]
    rcases hrest with rfl | ⟨rest, rfl⟩ <;> simp

theorem cutBefore_append_cons {c : Char} {before : List Char} (h : c ∉ before) (rest : List Char) :
    (before ++ c :: rest).takeWhile (· != c) = before ∧
      (before ++ c :: rest).dropWhile (· != c) = c :: rest :=
  cutBefore_iff.mpr ⟨rfl, h, Or.inr ⟨rest, rfl⟩⟩

/-! ## The first occurrence of a block -/

theorem isPrefixOf?_eq_some_iff {sep s after : List Char} :
    sep.isPrefixOf? s = some after ↔ s = sep ++ after := by
  induction sep generalizing s with
  | nil => exact Option.some_inj
  | cons a sep ih =>
    cases s with
    | nil => exact iff_of_false nofun nofun
    | cons b s =>
      have hstep : (a :: sep).isPrefixOf? (b :: s) =
          if a == b then sep.isPrefixOf? s else none := rfl
      rw [hstep]
      by_cases hab : a = b
      · simp [hab, ih]
      · simp [hab, Ne.symm hab]

theorem isPrefixOf?_eq_none_iff {sep s : List Char} :
    sep.isPrefixOf? s = none ↔ ¬ sep <+: s := by
  rw [Option.eq_none_iff_forall_ne_some]
  simp only [ne_eq, isPrefixOf?_eq_some_iff]
  constructor
  · rintro h ⟨after, hs⟩
    exact h after hs.symm
  · rintro h after rfl
    exact h (List.prefix_append sep after)

/-- There is a cut unless the block occurs nowhere. -/
theorem cutAt?_eq_none_iff {sep : List Char} (hsep : sep ≠ []) {s : List Char} :
    cutAt? sep s = none ↔ ¬ sep <:+: s := by
  induction s with
  | nil => simp [cutAt?, hsep]
  | cons c cs ih =>
    rw [cutAt?, List.infix_cons_iff, not_or, ← ih, ← isPrefixOf?_eq_none_iff]
    cases sep.isPrefixOf? (c :: cs) <;> simp

/-- The cut is at the first occurrence: no other one ends before it does. -/
theorem cutAt?_eq_some_iff {sep : List Char} (hsep : sep ≠ []) {s before after : List Char} :
    cutAt? sep s = some (before, after) ↔
      s = before ++ sep ++ after ∧ ¬ sep <:+: before ++ sep.dropLast := by
  have hshort : sep.dropLast.length + 1 = sep.length := by
    have hpos := List.length_pos_iff.mpr hsep
    rw [List.length_dropLast]
    omega
  have hfront : ∀ before after, before ++ sep.dropLast <+: before ++ sep ++ after := by
    intro before after
    rw [List.append_assoc, List.prefix_append_right_inj]
    exact (List.dropLast_prefix sep).trans (List.prefix_append sep after)
  induction s generalizing before with
  | nil => simp [cutAt?, hsep]
  | cons c cs ih =>
    rw [cutAt?]
    cases hpre : sep.isPrefixOf? (c :: cs) with
    | some rest =>
      rw [isPrefixOf?_eq_some_iff] at hpre
      constructor
      · intro h
        cases h
        refine ⟨hpre, fun hinfix => ?_⟩
        have hle := hinfix.length_le
        rw [List.nil_append] at hle
        omega
      · rintro ⟨hs, hfirst⟩
        cases before with
        | nil =>
          have hrest : rest = after := List.append_cancel_left (hpre.symm.trans hs)
          rw [hrest]
        | cons d front =>
          -- The occurrence in front ends before the one behind `d :: front` does.
          have hle : sep.length ≤ (d :: front ++ sep.dropLast).length := by
            rw [List.length_append, List.length_cons]
            omega
          have hearly := List.prefix_of_prefix_length_le ⟨rest, hpre.symm⟩
            (hs ▸ hfront (d :: front) after) hle
          exact absurd hearly.isInfix hfirst
    | none =>
      rw [isPrefixOf?_eq_none_iff] at hpre
      simp only [Option.map_eq_some_iff, Prod.exists, Prod.mk.injEq]
      constructor
      · rintro ⟨front, rest, hcut, rfl, rfl⟩
        obtain ⟨rfl, hfirst⟩ := ih.mp hcut
        refine ⟨rfl, fun hinfix => ?_⟩
        rcases List.infix_cons_iff.mp hinfix with hstart | hinside
        · exact hpre (hstart.trans (hfront (c :: front) rest))
        · exact hfirst hinside
      · rintro ⟨hs, hfirst⟩
        cases before with
        | nil => exact absurd ⟨after, hs.symm⟩ hpre
        | cons d front =>
          obtain ⟨rfl, rfl⟩ := List.cons.inj hs
          exact ⟨front, after, ih.mpr ⟨rfl, fun h => hfirst (List.infix_cons h)⟩, rfl, rfl⟩

/-! ## The last occurrence of a character -/

theorem exists_of_beforeLast? {c : Char} {s before : List Char}
    (h : beforeLast? c s = some before) : ∃ after, s = before ++ c :: after := by
  induction s generalizing before with
  | nil => cases h
  | cons d ds ih =>
    rw [beforeLast?] at h
    split at h
    · rename_i front hfront
      obtain ⟨after, rfl⟩ := ih hfront
      cases h
      exact ⟨after, rfl⟩
    · split at h
      · rename_i hd
        cases h
        exact ⟨ds, by rw [eq_of_beq hd, List.nil_append]⟩
      · cases h

/-! ## The rests behind a character -/

theorem mem_tailsAfter_iff {c : Char} {s t : List Char} :
    t ∈ tailsAfter c s ↔ ∃ before, s = before ++ c :: t := by
  induction s with
  | nil => simp [tailsAfter]
  | cons d ds ih =>
    have hcons : (∃ before, d :: ds = before ++ c :: t) ↔
        (d = c ∧ ds = t) ∨ ∃ before, ds = before ++ c :: t := by
      constructor
      · rintro ⟨before, h⟩
        cases before with
        | nil => exact Or.inl (by simpa using h)
        | cons b bs => exact Or.inr ⟨bs, by simpa using (List.cons.inj h).2⟩
      · rintro (⟨rfl, rfl⟩ | ⟨before, rfl⟩)
        · exact ⟨[], rfl⟩
        · exact ⟨d :: before, rfl⟩
    rw [hcons]
    by_cases hd : d = c
    · simp [tailsAfter, hd, ih, eq_comm]
    · simp [tailsAfter, hd, ih]

theorem suffix_of_mem_tailsAfter {c : Char} {s t : List Char} (h : t ∈ tailsAfter c s) :
    t <:+ s := by
  obtain ⟨before, rfl⟩ := mem_tailsAfter_iff.mp h
  exact (List.suffix_cons c t).trans (List.suffix_append before _)

/-- Each rest ends with all that come after it. -/
theorem pairwise_tailsAfter (c : Char) (s : List Char) :
    (tailsAfter c s).Pairwise fun t u => u <:+ t := by
  induction s with
  | nil => exact List.Pairwise.nil
  | cons d ds ih =>
    rw [tailsAfter]
    split
    · exact List.Pairwise.cons (fun _ hu => suffix_of_mem_tailsAfter hu) ih
    · exact ih

/-- The last rest that passes a test is the end of each other one that does. -/
theorem suffix_of_find?_tailsAfter {c : Char} {s t u : List Char} {test : List Char → Bool}
    (hfind : (tailsAfter c s).reverse.find? test = some t) (hu : u ∈ tailsAfter c s)
    (htest : test u = true) : t <:+ u := by
  obtain ⟨-, front, back, hsplit, hfront⟩ := List.find?_eq_some_iff_append.mp hfind
  have hends := List.pairwise_reverse.mpr (pairwise_tailsAfter c s)
  rw [hsplit, List.pairwise_append, List.pairwise_cons] at hends
  rw [← List.mem_reverse, hsplit, List.mem_append, List.mem_cons] at hu
  rcases hu with hu | rfl | hu
  · exact absurd htest (by simpa using hfront u hu)
  · exact List.suffix_rfl
  · exact hends.2.1.1 u hu

end UniqueSelector.Text
