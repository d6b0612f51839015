/-
  UniqueSelector.Proofs.Selector.Normal

  What a text that is read comes to. Every compound in the result has a
  condition and a type at most in front, no name in it is empty, and there is a
  link for each combinator that was read. Such a selector has spellings unless
  a NUL stands in it, so one spelling of it takes the place of the text.

    * `Compound.Readable` — the compounds that readers can produce, NUL aside.
    * `Selector.Reads` — the readers' steps along a text, from the left.
    * `readable_of_takeCompound` — the step; `Selector.Reads.readable`,
      `reads_of_takeChain` — the run.
    * `ofString_normal` — the whole.
-/

import UniqueSelector.Proofs.Selector.Spelling

namespace UniqueSelector

open Text Identifier Selector

/-! ## Names and values -/

/-- The names in a condition. -/
def SimpleSelector.names : SimpleSelector → List String
  | .typeName n => [n]
  | .className n => [n]
  | .idName n => [n]
  | .attribute test => [test.name]
  | .universal => []
  | .pseudo _ => []

/-- The names in a condition, and the value in it. -/
def SimpleSelector.texts : SimpleSelector → List String
  | .attribute test => test.name :: (test.agreement?.map Prod.snd).toList
  | x => x.names

/-- No name and no value in the selector contains NUL. -/
def Selector.NulFree (s : Selector) : Prop :=
  ∀ c ∈ s.compounds, ∀ x ∈ c, ∀ text ∈ x.texts, '\x00' ∉ text.toList

/-- A compound has a condition, a type at most in the first place, and no empty name. -/
structure Compound.Readable (c : Compound) : Prop where
  ne_nil : c ≠ []
  type_first : ∀ x ∈ c.tail, ¬ x.IsType
  names : ∀ x ∈ c, ∀ n ∈ x.names, n ≠ ""

theorem SimpleSelector.wellFormed_of_texts {x : SimpleSelector} (hnames : ∀ n ∈ x.names, n ≠ "")
    (hnul : ∀ text ∈ x.texts, '\x00' ∉ text.toList) : x.WellFormed := by
  cases x with
  | typeName n => exact ⟨hnames n (by simp [names]), hnul n (by simp [texts, names])⟩
  | className n => exact ⟨hnames n (by simp [names]), hnul n (by simp [texts, names])⟩
  | idName n => exact ⟨hnames n (by simp [names]), hnul n (by simp [texts, names])⟩
  | «attribute» test =>
      refine ⟨⟨hnames _ (by simp [names]), hnul _ (by simp [texts])⟩, ?_⟩
      intro operator value hagreement
      exact hnul value (by simp [texts, hagreement])
  | universal => trivial
  | pseudo condition => trivial

theorem Compound.Readable.wellFormed {c : Compound} (h : c.Readable)
    (hnul : ∀ x ∈ c, ∀ text ∈ x.texts, '\x00' ∉ text.toList) : c.WellFormed where
  ne_nil := h.ne_nil
  type_first := h.type_first
  each x hx := SimpleSelector.wellFormed_of_texts (h.names x hx) (hnul x hx)

/-- Without NUL, what readers produce can be written. -/
theorem Selector.wellFormed_of_readable {s : Selector} (h : ∀ c ∈ s.compounds, c.Readable)
    (hnul : s.NulFree) : s.WellFormed := by
  have hall : ∀ c ∈ s.compounds, c.WellFormed := fun c hc => (h c hc).wellFormed (hnul c hc)
  refine ⟨hall _ List.mem_cons_self, fun link hlink => ?_⟩
  exact hall _ (List.mem_cons_of_mem _ (List.mem_map_of_mem hlink))

/-! ## One compound -/

theorem name_ne_of_takeAttribute {s rest : List Char} {test : AttributeTest}
    (h : takeAttribute s = .ok (test, rest)) : test.name ≠ "" := by
  obtain ⟨⟨name, r₁⟩, hname, h⟩ := bind_eq_ok h
  obtain ⟨⟨operator?, r₂⟩, -, h⟩ := bind_eq_ok h
  have hne : name ≠ "" := by
    unfold takeAttributeName at hname
    split at hname
    · rename_i hstart
      cases hname
      simpa using takeName_ne_nil hstart
    · cases hname
  cases operator? with
  | none => cases h; exact hne
  | some operator =>
      obtain ⟨_, -, h⟩ := bind_eq_ok h
      obtain ⟨_, -, h⟩ := bind_eq_ok h
      cases h
      exact hne

/-- A condition behind a mark is no type, and its name is not empty. -/
theorem SimpleRead.readable {s rest : List Char} {x : SimpleSelector} (h : SimpleRead s x rest) :
    ¬ x.IsType ∧ ∀ n ∈ x.names, n ≠ "" := by
  cases h with
  | idName hne => exact ⟨id, by simpa [SimpleSelector.names] using hne⟩
  | className hstart => exact ⟨id, by simpa [SimpleSelector.names] using takeName_ne_nil hstart⟩
  | «attribute» htest =>
      exact ⟨id, by simpa [SimpleSelector.names] using name_ne_of_takeAttribute htest⟩
  | pseudo => exact ⟨id, by simp [SimpleSelector.names]⟩

theorem readable_of_takeSimples {s rest : List Char} {xs : Compound}
    (h : takeSimples s = .ok (xs, rest)) :
    ∀ x ∈ xs, ¬ x.IsType ∧ ∀ n ∈ x.names, n ≠ "" := by
  fun_induction takeSimples s generalizing xs with
  | case1 => cases h
  | case2 => cases h; simp
  | case3 s x mid hsimple ih =>
      obtain ⟨⟨others, r⟩, hothers, hpure⟩ := bind_eq_ok h
      cases hpure
      have hfirst := takeSimple_eq_some_iff.mp hsimple
      exact List.forall_mem_cons.mpr ⟨hfirst.readable, ih hothers⟩

theorem takeType_cases (s : List Char) :
    (takeType s).1 = [] ∨ ∃ x, (takeType s).1 = [x] ∧ ∀ n ∈ x.names, n ≠ "" := by
  unfold takeType
  split
  · exact Or.inr ⟨.universal, rfl, by simp [SimpleSelector.names]⟩
  · split
    · rename_i hstart
      refine Or.inr ⟨_, rfl, ?_⟩
      simpa [SimpleSelector.names] using takeName_ne_nil hstart
    · exact Or.inl rfl

/-- A type is read in front only, and the compound is not empty. -/
theorem readable_of_takeCompound {s rest : List Char} {c : Compound}
    (h : takeCompound s = .ok (c, rest)) : c.Readable := by
  obtain ⟨hne, others, hothers, rfl⟩ := takeCompound_eq_ok_iff.mp h
  have hall := readable_of_takeSimples hothers
  rcases takeType_cases s with htype | ⟨x, htype, hx⟩
  · rw [htype, List.nil_append] at hne ⊢
    exact ⟨hne, fun y hy => (hall y (List.mem_of_mem_tail hy)).1, fun y hy => (hall y hy).2⟩
  · -- The type stands first, and the conditions behind it are the tail.
    rw [htype, List.singleton_append] at hne ⊢
    exact ⟨hne, fun y hy => (hall y hy).1,
      List.forall_mem_cons.mpr ⟨hx, fun y hy => (hall y hy).2⟩⟩

/-! ## The chain -/

/-- From `s` on the readers meet the compounds `cs`, with the combinators `ks` between them, and
    then the end. -/
inductive Selector.Reads : List Char → List Combinator → List Compound → Prop
  | last {s rest : List Char} {c : Compound} (hc : takeCompound s = .ok (c, rest))
      (hend : takeCombinator rest = .ok none) : Reads s [] [c]
  | link {s rest rest' : List Char} {c : Compound} {k : Combinator} {ks : List Combinator}
      {cs : List Compound} (hc : takeCompound s = .ok (c, rest))
      (hk : takeCombinator rest = .ok (some (k, rest'))) (h : Reads rest' ks cs) :
      Reads s (k :: ks) (c :: cs)

theorem Selector.Reads.readable {s : List Char} {ks : List Combinator} {cs : List Compound}
    (h : Reads s ks cs) : ∀ c ∈ cs, c.Readable := by
  induction h with
  | last hc hend => exact List.forall_mem_singleton.mpr (readable_of_takeCompound hc)
  | link hc hk h ih => exact List.forall_mem_cons.mpr ⟨readable_of_takeCompound hc, ih⟩

/-- A compound and the chain behind it: the links that are read lie on those read before. -/
theorem reads_of_takeChain {sofar x : Selector} {s rest : List Char}
    (hsubject : takeCompound s = .ok (sofar.subject, rest)) (h : takeChain sofar rest = .ok x) :
    ∃ ks cs, Reads s ks cs ∧ x.chain.map Prod.fst = ks.reverse ++ sofar.chain.map Prod.fst ∧
      x.compounds = cs.reverse ++ sofar.chain.map Prod.snd := by
  fun_induction takeChain sofar rest generalizing s with
  | case1 => cases h
  | case2 sofar rest hnone =>
      cases h
      exact ⟨[], [_], Reads.last hsubject hnone, rfl, rfl⟩
  | case3 => cases h
  | case4 sofar rest k rest₁ hcombinator c rest₂ hcompound ih =>
      obtain ⟨ks, cs, hreads, hks, hcs⟩ := ih hcompound h
      refine ⟨k :: ks, sofar.subject :: cs, Reads.link hsubject hcombinator hreads, ?_, ?_⟩
      · rw [hks, List.reverse_cons, List.append_assoc]
        rfl
      · rw [hcs, List.reverse_cons, List.append_assoc]
        rfl

/-! ## The whole text -/

theorem reads_of_takeSelector {s : List Char} {x : Selector} (h : takeSelector s = .ok x) :
    ∃ ks cs, Reads s ks cs ∧ x.chain.map Prod.fst = ks.reverse ∧ x.compounds = cs.reverse := by
  obtain ⟨⟨c, rest⟩, hcompound, hchain⟩ := bind_eq_ok h
  obtain ⟨ks, cs, hreads, hks, hcs⟩ := reads_of_takeChain hcompound hchain
  exact ⟨ks, cs, hreads, by simpa using hks, by simpa using hcs⟩

/-- A text that is read as a selector comes to compounds that are not empty, have a type at most
    in front and no empty name, linked by the combinators read; and without NUL, the selector is
    what its canonical spelling reads as. -/
theorem ofString_normal {text : String} {x : Selector} (h : ofString text = .ok x) :
    (∀ c ∈ x.compounds, c.Readable) ∧
      (∃ ks cs, Reads (skipSpace text.toList) ks cs ∧ x.chain.map Prod.fst = ks.reverse ∧
        x.compounds = cs.reverse) ∧
      (x.NulFree → x.Spelling x.print ∧ ofString (String.ofList x.print) = .ok x) := by
  obtain ⟨-, hread⟩ := takeSelector_of_ofList h
  obtain ⟨ks, cs, hreads, hks, hcs⟩ := reads_of_takeSelector hread
  have hreadable : ∀ c ∈ x.compounds, c.Readable := by
    intro c hc
    rw [hcs, List.mem_reverse] at hc
    exact hreads.readable c hc
  refine ⟨hreadable, ⟨ks, cs, hreads, hks, hcs⟩, fun hnul => ?_⟩
  -- What can be read and has no NUL can be written, and its spelling is read as it.
  have hwf := Selector.wellFormed_of_readable hreadable hnul
  have hspelling := Selector.spelling_print hwf
  refine ⟨hspelling, ?_⟩
  rw [ofString, String.toList_ofList]
  exact ofList_of_spelling hspelling hwf

theorem ofString_normal_odd_escapes :
    let x : Selector := { subject := [.pseudo .root, .idName "1\uFFFD"] }
    ofString ":\\52 oOT#1\\" = .ok x ∧ x.NulFree ∧ ofString ":root#\\31 \uFFFD" = .ok x := by
  intro x
  have hroot : takeName "\\52 oOT#1\\".toList = ("RoOT".toList, "#1\\".toList) := by
    have hplain : Pieces "oOT".toList "oOT".toList := pieces_self (List.all_eq_true.mp (by decide))
    have hends : EndsName "#1\\".toList := endsName_cons (by decide) (by decide) _
    show takeName ('\\' :: "52 oOT#1\\".toList) = _
    rw [takeName_backslash (by decide)]
    show ('R' :: (takeName ("oOT".toList ++ "#1\\".toList)).1,
      (takeName ("oOT".toList ++ "#1\\".toList)).2) = _
    rw [takeName_pieces hplain, takeName_of_endsName hends]
    rfl
  have hid : takeName "1\\".toList = ("1\uFFFD".toList, []) := by
    show takeName ['1', '\\'] = _
    rw [takeName_cons_of_isNameChar (by decide), takeName_backslash (by decide)]
    show ('1' :: replacement :: (takeName []).1, (takeName []).2) = _
    rw [takeName_nil]
    rfl
  have hpseudo : takeSimple ":\\52 oOT#1\\".toList =
      .ok (some (.pseudo .root, "#1\\".toList)) := by
    show (takePseudo "\\52 oOT#1\\".toList >>= _) = _
    rw [takePseudo_of_plain (by decide) (by rw [hroot]; decide), hroot]
    rfl
  have hhash : takeSimple "#1\\".toList = .ok (some (.idName "1\uFFFD", [])) := by
    show takeSimple ('#' :: "1\\".toList) = _
    rw [takeSimple, hid]
    rfl
  have hread : takeCompound ":\\52 oOT#1\\".toList = .ok (x.subject, []) := by
    show (takeSimples ":\\52 oOT#1\\".toList >>= _) = _
    rw [takeSimples_some hpseudo (takeSimples_some hhash (takeSimples_none rfl))]
    rfl
  have hx : ofString ":\\52 oOT#1\\" = .ok x := by
    apply ofList_of_takeSelector (by decide)
    show takeSelector ":\\52 oOT#1\\".toList = _
    rw [takeSelector, hread]
    exact takeChain_none rfl _
  have hnul : x.NulFree := by
    simp [x, Selector.NulFree, Selector.compounds, SimpleSelector.texts, SimpleSelector.names]
  have hprint : String.ofList x.print = ":root#\\31 \uFFFD" := by decide
  have hnormal := (ofString_normal hx).2.2 hnul
  rw [hprint] at hnormal
  exact ⟨hx, hnul, hnormal.2⟩

end UniqueSelector
