/-
  UniqueSelector.Proofs.Selector.Extent

  How far the selector readers get. What a reader leaves is an end of what it
  was given, and where it fails no more is left than there was, so that the
  position of every error lies inside the text.

    * `Within` — a result stays within a text.
    * `Within.bind` — so do two readers in a row.
    * `within_takeQuoted`, `within_takeAttribute`, `within_takePseudo`,
      `within_takeSimple`, `within_takeCompound` — the readers.
    * `within_takeSelector` — the reader of a whole selector.
-/

import UniqueSelector.Proofs.Selector.Continuation
import UniqueSelector.Proofs.Identifier.Spellings

namespace UniqueSelector

open Text Identifier Selector

/-- What is left behind a result is an end of `s`, and behind a fault no more characters are left
    than `s` has. -/
def Within {α : Type} (s : List Char) (left : α → List Char) : Except Fault α → Prop
  | .ok a => left a <:+ s
  | .error (.expected n _) => n ≤ s.length
  | .error (.unsupported _) => True

namespace Within

variable {α β : Type} {s rest : List Char} {left : α → List Char} {left' : β → List Char}

theorem failAt (h : rest <:+ s) (expectation : Expectation) :
    Within s left (UniqueSelector.failAt rest expectation) :=
  h.length_le

theorem mono {x : Except Fault α} (h : Within rest left x) (hrest : rest <:+ s) :
    Within s left x := by
  match x, h with
  | .ok a, h => exact List.IsSuffix.trans h hrest
  | .error (.expected n _), h => exact Nat.le_trans h hrest.length_le
  | .error (.unsupported _), _ => trivial

/-- A reader that goes on with what another one left. -/
theorem bind {x : Except Fault α} {f : α → Except Fault β} (h : Within s left x)
    (hf : ∀ a, Within (left a) left' (f a)) : Within s left' (x >>= f) := by
  match x, h with
  | .ok a, h => exact (hf a).mono h
  | .error (.expected n _), h => exact h
  | .error (.unsupported _), _ => trivial

theorem map {x : Except Fault α} {f : α → β} (h : Within s left x)
    (hf : ∀ a, left' (f a) = left a) : Within s left' (x.map f) := by
  match x, h with
  | .ok a, h =>
      show left' (f a) <:+ s
      rwa [hf]
  | .error (.expected n _), h => exact h
  | .error (.unsupported _), _ => trivial

/-- A fault is passed on as it is. -/
theorem fault {x : Except Fault α} {cause : Fault} (h : Within s left x) (hx : x = .error cause) :
    Within s left' (.error cause) := by
  subst hx
  match cause, h with
  | .expected n _, h => exact h
  | .unsupported _, _ => trivial

theorem suffix {x : Except Fault α} {a : α} (h : Within s left x) (hx : x = .ok a) :
    left a <:+ s := by
  rw [hx] at h
  exact h

end Within

/-! ## Names -/

theorem skipSpace_suffix (s : List Char) : skipSpace s <:+ s :=
  List.dropWhile_suffix isSpace

theorem skipOneSpace_suffix (s : List Char) : skipOneSpace s <:+ s := by
  cases s with
  | nil => exact List.suffix_rfl
  | cons c cs =>
      rw [skipOneSpace]
      split
      · exact List.suffix_cons c cs
      · exact List.suffix_rfl

theorem takeEscape_suffix (s : List Char) : (takeEscape s).2 <:+ s := by
  cases s with
  | nil => exact List.suffix_rfl
  | cons c cs =>
      rw [takeEscape]
      split
      · exact ((skipOneSpace_suffix _).trans (List.drop_suffix _ cs)).trans (List.suffix_cons c cs)
      · exact List.suffix_cons c cs

theorem takeName_suffix (s : List Char) : (takeName s).2 <:+ s := by
  obtain ⟨text, hs, -⟩ := exists_spells_takeName s
  exact ⟨text, hs.symm⟩

/-! ## Strings -/

theorem within_takeQuoted (quote : Char) (s : List Char) :
    Within s Prod.snd (takeQuoted quote s) := by
  -- Along the recursion: every case goes on with an end of its own text.
  fun_induction takeQuoted quote s with
  | case1 => exact Within.failAt List.suffix_rfl _
  | case2 c cs hc => exact List.suffix_cons c cs
  | case3 c cs hc hline => exact Within.failAt (List.suffix_cons c cs) _
  | case4 c cs hc hline hback hend => exact Within.failAt (List.nil_suffix) _
  | case5 c cs hc hline hback hend hopens ih =>
      have hcs := (takeEscape_suffix cs).trans (List.suffix_cons c cs)
      exact (ih.mono hcs).bind fun _ => List.suffix_rfl
  | case6 c cs hc hline hback hend hopens ih =>
      exact ih.mono ((List.tail_suffix cs).trans (List.suffix_cons c cs))
  | case7 c cs hc hline hback ih =>
      exact (ih.mono (List.suffix_cons c cs)).bind fun _ => List.suffix_rfl

/-! ## Attribute conditions -/

theorem within_takeAttributeName (s : List Char) : Within s Prod.snd (takeAttributeName s) := by
  rw [takeAttributeName]
  split
  · exact takeName_suffix s
  · exact Within.failAt List.suffix_rfl _

theorem within_takeOperator (s : List Char) : Within s Prod.snd (takeOperator s) := by
  cases s with
  | nil => exact Within.failAt List.suffix_rfl _
  | cons c cs =>
      have hcs := List.suffix_cons c cs
      have htail := (List.tail_suffix cs).trans hcs
      rw [takeOperator]
      split
      · exact hcs
      split
      · exact hcs
      split
      · exact Within.failAt hcs _
      split
      · exact htail
      -- What stands in place of the `=` has been read when it is missed.
      · exact Within.failAt htail _

theorem within_takeValue (s : List Char) : Within s Prod.snd (takeValue s) := by
  unfold takeValue
  split
  · exact ((within_takeQuoted _ _).mono (List.suffix_cons _ _)).bind fun _ => List.suffix_rfl
  · exact ((within_takeQuoted _ _).mono (List.suffix_cons _ _)).bind fun _ => List.suffix_rfl
  · split
    · exact takeName_suffix _
    · exact Within.failAt List.suffix_rfl _

theorem within_takeAttributeEnd (s : List Char) : Within s Prod.snd (takeAttributeEnd s) := by
  unfold takeAttributeEnd
  split
  · exact List.suffix_cons _ _
  · exact Within.failAt (List.tail_suffix _) _

theorem within_takeAgreement (name : String) (operator? : Option AttributeOperator)
    (s : List Char) : Within s Prod.snd (takeAgreement name operator? s) := by
  cases operator? with
  | none => exact List.suffix_rfl
  | some operator =>
      refine ((within_takeValue _).mono (skipSpace_suffix s)).bind fun value => ?_
      refine ((within_takeAttributeEnd _).mono (skipSpace_suffix value.2)).bind fun ended => ?_
      exact List.suffix_rfl

theorem within_takeAttribute (s : List Char) : Within s Prod.snd (takeAttribute s) := by
  rw [takeAttribute_eq]
  refine ((within_takeAttributeName _).mono (skipSpace_suffix s)).bind fun name => ?_
  refine ((within_takeOperator _).mono (skipSpace_suffix name.2)).bind fun operator => ?_
  exact within_takeAgreement name.1 operator.1 operator.2

/-! ## Pseudo-classes -/

/-- Without an argument nothing is read behind the name. -/
theorem within_plainPseudo (name : String) (rest : List Char) :
    Within rest (fun _ => rest) (plainPseudo name) := by
  unfold plainPseudo
  split
  · exact List.suffix_rfl
  · trivial

theorem within_argumentPseudo (name : String) (argument rest : List Char) :
    Within rest (fun _ => rest) (argumentPseudo name argument rest) := by
  unfold argumentPseudo
  split
  · split
    · exact List.suffix_rfl
    · exact Within.failAt List.suffix_rfl _
  · trivial

theorem within_takeArgument (s : List Char) : Within s Prod.snd (takeArgument s) := by
  unfold takeArgument
  split
  · exact Within.failAt List.nil_suffix _
  · rename_i c rest hdrop
    have hrest : c :: rest <:+ s := hdrop ▸ List.dropWhile_suffix _
    exact (List.suffix_cons c rest).trans hrest

theorem within_takePseudo (s : List Char) : Within s Prod.snd (takePseudo s) := by
  by_cases hstart : startsName s = true
  · have hname := takeName_suffix s
    by_cases hparen : (takeName s).2.head? = some '('
    · obtain ⟨cs, hcs⟩ := List.head?_eq_some_iff.mp hparen
      rw [hcs] at hname
      rw [takePseudo_of_parenthesis hstart hcs]
      have hargument := (within_takeArgument cs).mono ((List.suffix_cons '(' cs).trans hname)
      exact hargument.bind fun argument => (within_argumentPseudo _ _ argument.2).map fun _ => rfl
    · rw [takePseudo_of_plain hstart hparen]
      exact ((within_plainPseudo _ _).mono hname).map fun _ => rfl
  · -- No name follows: the text goes on with a second colon, or with nothing that is allowed.
    unfold takePseudo
    rw [if_neg hstart]
    split
    · trivial
    · exact Within.failAt List.suffix_rfl _

/-! ## Compounds -/

/-- Where no condition stands, all is left. -/
theorem within_takeSimple (s : List Char) :
    Within s (fun simple? => (simple?.map Prod.snd).getD s) (takeSimple s) := by
  unfold takeSimple
  split
  · rename_i cs
    have hname := (takeName_suffix cs).trans (List.suffix_cons '#' cs)
    split
    · exact Within.failAt hname _
    · exact hname
  · rename_i cs
    split
    · exact (takeName_suffix cs).trans (List.suffix_cons '.' cs)
    · exact Within.failAt (List.suffix_cons '.' cs) _
  · rename_i cs
    exact ((within_takeAttribute cs).mono (List.suffix_cons '[' cs)).bind fun _ => List.suffix_rfl
  · rename_i cs
    exact ((within_takePseudo cs).mono (List.suffix_cons ':' cs)).bind fun _ => List.suffix_rfl
  · exact List.suffix_rfl

theorem takeSimple_suffix {s rest : List Char} {x : SimpleSelector}
    (h : takeSimple s = .ok (some (x, rest))) : rest <:+ s :=
  (within_takeSimple s).suffix h

theorem takeType_suffix (s : List Char) : (takeType s).2 <:+ s := by
  unfold takeType
  split
  · exact List.suffix_cons _ _
  · split
    · exact takeName_suffix _
    · exact List.suffix_rfl

theorem within_takeSimples (s : List Char) : Within s Prod.snd (takeSimples s) := by
  fun_induction takeSimples s with
  | case1 s fault h => exact (within_takeSimple s).fault h
  | case2 s h => exact List.suffix_rfl
  | case3 s x rest h ih =>
      exact (ih.mono (takeSimple_suffix h)).bind fun _ => List.suffix_rfl

theorem within_takeCompound (s : List Char) : Within s Prod.snd (takeCompound s) := by
  refine ((within_takeSimples _).mono (takeType_suffix s)).bind fun others => ?_
  dsimp only
  split
  · exact Within.failAt List.suffix_rfl _
  · exact List.suffix_rfl

/-! ## Chains -/

theorem within_takeCombinator (s : List Char) :
    Within s (fun combinator? => (combinator?.map Prod.snd).getD []) (takeCombinator s) := by
  have hs := skipSpace_suffix s
  have hmark : ∀ c cs, skipSpace s = c :: cs → skipSpace cs <:+ s := by
    intro c cs hcs
    rw [hcs] at hs
    exact ((skipSpace_suffix cs).trans (List.suffix_cons c cs)).trans hs
  unfold takeCombinator
  split
  · exact List.nil_suffix
  · exact hmark _ _ ‹_›
  · exact hmark _ _ ‹_›
  · exact hmark _ _ ‹_›
  · split
    · exact hs
    · exact Within.failAt hs _

/-- A chain is read to the end of the text. -/
theorem within_takeChain (sofar : Selector) (s : List Char) :
    Within s (fun _ => []) (takeChain sofar s) := by
  fun_induction takeChain sofar s with
  | case1 sofar s fault h => exact (within_takeCombinator s).fault h
  | case2 sofar s h => exact List.nil_suffix
  | case3 sofar s k mid h fault h' =>
      exact ((within_takeCompound mid).mono ((within_takeCombinator s).suffix h)).fault h'
  | case4 sofar s k mid h c rest h' ih =>
      have hmid := (within_takeCombinator s).suffix h
      exact ih.mono (((within_takeCompound mid).suffix h').trans hmid)

theorem within_takeSelector (s : List Char) : Within s (fun _ => []) (takeSelector s) :=
  (within_takeCompound s).bind fun first => within_takeChain { subject := first.1 } first.2

end UniqueSelector
