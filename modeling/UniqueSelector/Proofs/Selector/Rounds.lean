/-
  UniqueSelector.Proofs.Selector.Rounds

  Reading a selector ends. The readers that repeat themselves are seven loops,
  each written here as one round, and every round that does not end its loop
  takes a character at least.

    * `blankLoop`, `digitLoop`, `nameLoop`, `quotedLoop`, `argumentLoop` — the
      loops over single characters.
    * `simpleLoop` — the conditions of a compound.
    * `chainLoop` — combinators, each with its compound.
    * `LoopsEnd`, `ofString_ends` — all of them end, only blanks are empty, and
      the position of an error is one of the text.

  The loops inside a round, such as those of the name that a condition takes,
  are among the seven themselves.
-/

import UniqueSelector.Proofs.Selector.Extent
import UniqueSelector.Proofs.Text.Loop

namespace UniqueSelector

open Text Identifier Selector

/-! ## What a round takes -/

/-- A round that leaves an end of the text, and not all of it, has taken something. -/
theorem exists_front {s rest : List Char} (h : rest <:+ s) (hlt : rest.length < s.length) :
    ∃ front, front ≠ [] ∧ s = front ++ rest := by
  obtain ⟨front, rfl⟩ := h
  refine ⟨front, ?_, rfl⟩
  rintro rfl
  exact Nat.lt_irrefl _ hlt

theorem exists_front_cons {c : Char} {cs rest : List Char} (h : rest <:+ cs) :
    ∃ front, front ≠ [] ∧ c :: cs = front ++ rest :=
  exists_front (h.trans (List.suffix_cons c cs)) (Nat.lt_succ_of_le h.length_le)

/-- What is taken, where the loop ends well. -/
def taken {α : Type} (items : List α) (answer : Except Fault (List Char)) :
    Except Fault (List α × List Char) :=
  answer.map (items, ·)

theorem taken_cons {α : Type} (x : α) (items : List α) (answer : Except Fault (List Char)) :
    taken (x :: items) answer =
      taken items answer >>= fun others => pure (x :: others.1, others.2) := by
  cases answer <;> rfl

/-! ## Blanks -/

/-- Blanks are skipped one by one. -/
def blankLoop : Loop (List Char) Char (List Char) where
  left := id
  round
    | [] => .ends []
    | c :: cs => if isSpace c then .goesOn c cs else .ends (c :: cs)

/-- The blanks in front, and what follows. -/
def blankRun (s : List Char) : List Char × List Char :=
  (s.takeWhile isSpace, skipSpace s)

theorem blankLoop_computes : blankLoop.Computes Prod.mk blankRun := by
  refine Loop.computes_of_follows fun s => ?_
  cases s with
  | nil => exact Loop.Follows.ends rfl
  | cons c cs =>
      simp only [blankLoop]
      split
      · rename_i hc
        refine Loop.Follows.goesOn (exists_front_cons List.suffix_rfl) fun _ _ hcs => ?_
        obtain ⟨rfl, rfl⟩ := Prod.mk.inj hcs
        rw [blankRun, skipSpace, List.takeWhile_cons_of_pos hc, List.dropWhile_cons_of_pos hc]
        rfl
      · rename_i hc
        refine Loop.Follows.ends ?_
        rw [blankRun, List.takeWhile_cons_of_neg hc, skipSpace_cons (Bool.eq_false_iff.mpr hc)]

/-! ## Names -/

/-- The hexadecimal digits in front, `room` of them at most, and what follows. -/
def hexRun : Nat × List Char → List Char × List Char
  | (room, s) =>
    let digits := (s.take room).takeWhile isHexDigit
    (digits, s.drop digits.length)

/-- An escape takes up to five more digits behind its first. -/
theorem takeEscape_cons (c : Char) (cs : List Char) :
    takeEscape (c :: cs) =
      if isHexDigit c then
        (charOfCodePoint (hexValue (c :: (hexRun (5, cs)).1)), skipOneSpace (hexRun (5, cs)).2)
      else (c, cs) :=
  rfl

theorem hexRun_cons {c : Char} (hc : isHexDigit c = true) (room : Nat) (cs : List Char) :
    hexRun (room + 1, c :: cs) = (c :: (hexRun (room, cs)).1, (hexRun (room, cs)).2) := by
  simp [hexRun, List.takeWhile_cons_of_pos hc]

/-- Digits are taken one by one while there is room. -/
def digitLoop : Loop (Nat × List Char) Char (List Char) where
  left := Prod.snd
  round
    | (0, s) => .ends s
    | (_ + 1, []) => .ends []
    | (room + 1, c :: cs) => if isHexDigit c then .goesOn c (room, cs) else .ends (c :: cs)

theorem digitLoop_computes : digitLoop.Computes Prod.mk hexRun := by
  refine Loop.computes_of_follows fun (room, s) => ?_
  cases room with
  | zero => exact Loop.Follows.ends rfl
  | succ room =>
      cases s with
      | nil => exact Loop.Follows.ends rfl
      | cons c cs =>
          simp only [digitLoop]
          split
          · rename_i hc
            refine Loop.Follows.goesOn (exists_front_cons List.suffix_rfl) fun _ _ hcs => ?_
            rw [hexRun_cons hc, hcs]
          · rename_i hc
            refine Loop.Follows.ends ?_
            simp [hexRun, List.takeWhile_cons_of_neg hc]

/-- A name is taken character by character, plain or escaped. -/
def nameLoop : Loop (List Char) Char (List Char) where
  left := id
  round
    | [] => .ends []
    | c :: cs =>
      if isNameChar c then .goesOn c cs
      else if c == '\\' && opensEscape cs then .goesOn (takeEscape cs).1 (takeEscape cs).2
      else .ends (c :: cs)

theorem nameLoop_computes : nameLoop.Computes Prod.mk takeName := by
  refine Loop.computes_of_follows fun s => ?_
  cases s with
  | nil => exact Loop.Follows.ends takeName_nil
  | cons c cs =>
      simp only [nameLoop]
      split
      · rename_i hc
        refine Loop.Follows.goesOn (exists_front_cons List.suffix_rfl) fun _ _ hcs => ?_
        rw [takeName_cons_of_isNameChar hc, hcs]
      rename_i hc
      split
      · rename_i hesc
        refine Loop.Follows.goesOn (exists_front_cons (takeEscape_suffix cs)) fun _ _ hrest => ?_
        rw [takeName, if_neg hc, if_pos hesc, hrest]
      · rename_i hesc
        exact Loop.Follows.ends (takeName_stop hc hesc)

/-! ## Strings -/

/-- A string is taken character by character. A backslash at the end of the text, or in front of
    a line feed, leaves nothing in the string. -/
def quotedLoop (quote : Char) : Loop (List Char) (Option Char) (Except Fault (List Char)) where
  left := id
  round
    | [] => .ends (failAt [] .stringEnd)
    | c :: cs =>
      if c == quote then .ends (.ok cs)
      else if c == '\n' then .ends (failAt cs .stringLine)
      else if c == '\\' then
        if cs == [] then .goesOn none []
        else if opensEscape cs then .goesOn (some (takeEscape cs).1) (takeEscape cs).2
        else .goesOn none cs.tail
      else .goesOn (some c) cs

/-- A backslash takes an escape, a line feed, or at the end of the text nothing, with it. -/
theorem quotedLoop_follows_backslash {quote c : Char} {cs : List Char}
    (hquote : ¬ (c == quote) = true) (hline : ¬ (c == '\n') = true) (hback : (c == '\\') = true) :
    (quotedLoop quote).Follows (fun items => taken (items.filterMap id)) (takeQuoted quote)
      (c :: cs)
      (if cs == [] then .goesOn none []
        else if opensEscape cs then .goesOn (some (takeEscape cs).1) (takeEscape cs).2
        else .goesOn none cs.tail) := by
  have hread := takeQuoted.eq_2 quote c cs
  rw [if_neg hquote, if_neg hline, if_pos hback] at hread
  split
  · rename_i hend
    rw [if_pos hend] at hread
    refine Loop.Follows.goesOn (exists_front_cons List.nil_suffix) fun _ _ hnil => ?_
    -- The string is missed in front of the end just as it is there.
    rw [takeQuoted] at hnil
    exact hread.trans hnil
  rename_i hend
  rw [if_neg hend] at hread
  split
  · rename_i hopens
    rw [if_pos hopens] at hread
    refine Loop.Follows.goesOn (exists_front_cons (takeEscape_suffix cs)) fun _ _ hrest => ?_
    rw [hread, hrest]
    exact (taken_cons _ _ _).symm
  · rename_i hopens
    rw [if_neg hopens] at hread
    refine Loop.Follows.goesOn (exists_front_cons (List.tail_suffix cs)) fun _ _ htail => ?_
    exact hread.trans htail

theorem quotedLoop_computes (quote : Char) :
    (quotedLoop quote).Computes (fun items => taken (items.filterMap id)) (takeQuoted quote) := by
  refine Loop.computes_of_follows fun s => ?_
  cases s with
  | nil => exact Loop.Follows.ends (takeQuoted.eq_1 quote)
  | cons c cs =>
      simp only [quotedLoop]
      split
      · rename_i hquote
        refine Loop.Follows.ends ?_
        rw [takeQuoted, if_pos hquote]
        rfl
      rename_i hquote
      split
      · rename_i hline
        refine Loop.Follows.ends ?_
        rw [takeQuoted, if_neg hquote, if_pos hline]
        rfl
      rename_i hline
      split
      · rename_i hback
        exact quotedLoop_follows_backslash hquote hline hback
      · rename_i hback
        refine Loop.Follows.goesOn (exists_front_cons List.suffix_rfl) fun _ _ hcs => ?_
        rw [takeQuoted, if_neg hquote, if_neg hline, if_neg hback, hcs]
        exact (taken_cons _ _ _).symm

/-! ## Arguments -/

/-- An argument is taken character by character. -/
def argumentLoop : Loop (List Char) Char (Except Fault (List Char)) where
  left := id
  round
    | [] => .ends (failAt [] .argumentEnd)
    | c :: cs => if c == ')' then .ends (.ok cs) else .goesOn c cs

theorem takeArgument_cons {c : Char} (hc : (c != ')') = true) (cs : List Char) :
    takeArgument (c :: cs) =
      takeArgument cs >>= fun argument => pure (c :: argument.1, argument.2) := by
  have htake : (c :: cs).takeWhile (· != ')') = c :: cs.takeWhile (· != ')') :=
    List.takeWhile_cons_of_pos hc
  have hdrop : (c :: cs).dropWhile (· != ')') = cs.dropWhile (· != ')') :=
    List.dropWhile_cons_of_pos hc
  rw [takeArgument, takeArgument, htake, hdrop]
  split <;> rfl

theorem argumentLoop_computes : argumentLoop.Computes taken takeArgument := by
  refine Loop.computes_of_follows fun s => ?_
  cases s with
  | nil => exact Loop.Follows.ends rfl
  | cons c cs =>
      simp only [argumentLoop]
      split
      · rename_i hc
        obtain rfl := beq_iff_eq.mp hc
        exact Loop.Follows.ends rfl
      · rename_i hc
        refine Loop.Follows.goesOn (exists_front_cons List.suffix_rfl) fun items answer hcs => ?_
        rw [takeArgument_cons (by simpa using hc), hcs, taken_cons]

/-! ## Conditions -/

/-- The conditions of a compound are taken one by one. -/
def simpleLoop : Loop (List Char) SimpleSelector (Except Fault (List Char)) where
  left := id
  round s :=
    match takeSimple s with
    | .error cause => .ends (.error cause)
    | .ok none => .ends (.ok s)
    | .ok (some (x, rest)) => .goesOn x rest

theorem simpleLoop_computes : simpleLoop.Computes taken takeSimples := by
  refine Loop.computes_of_follows fun s => ?_
  simp only [simpleLoop]
  split
  · rename_i cause h
    exact Loop.Follows.ends (takeSimples_error h)
  · rename_i h
    exact Loop.Follows.ends (takeSimples_none h)
  · rename_i x rest h
    have hfront := exists_front (takeSimple_suffix h) (takeSimple_lt h)
    refine Loop.Follows.goesOn hfront fun _ _ hrest => ?_
    rw [takeSimples_cons h, hrest, taken_cons]

/-! ## Chains -/

/-- What follows the first compound: a combinator and a compound, again and again. -/
def chainLoop : Loop (List Char) (Combinator × Compound) (Except Fault Unit) where
  left := id
  round s :=
    match takeCombinator s with
    | .error cause => .ends (.error cause)
    | .ok none => .ends (.ok ())
    | .ok (some (k, rest)) =>
      match takeCompound rest with
      | .error cause => .ends (.error cause)
      | .ok (c, rest) => .goesOn (k, c) rest

/-- A selector extended by what the chain takes, where it ends well. -/
def chained (items : List (Combinator × Compound)) (answer : Except Fault Unit)
    (sofar : Selector) : Except Fault Selector :=
  answer.map fun _ => items.foldl (fun x (k, c) => x.extend k c) sofar

theorem chainLoop_computes :
    chainLoop.Computes chained fun s sofar => takeChain sofar s := by
  refine Loop.computes_of_follows fun s => ?_
  simp only [chainLoop]
  split
  · rename_i cause h
    exact Loop.Follows.ends (funext (takeChain_error h))
  · rename_i h
    exact Loop.Follows.ends (funext (takeChain_none h))
  rename_i k mid h
  have hmid := (within_takeCombinator s).suffix h
  split
  · rename_i cause h'
    refine Loop.Follows.ends (funext fun sofar => ?_)
    rw [takeChain_some h, h']
    rfl
  · rename_i c rest h'
    have hrest := (within_takeCompound mid).suffix h'
    -- The compound takes a character, whatever the combinator in front of it takes.
    have hlt := Nat.lt_of_lt_of_le (takeCompound_lt h') (takeCombinator_le h)
    refine Loop.Follows.goesOn (exists_front (hrest.trans hmid) hlt) fun items answer hnext => ?_
    funext sofar
    rw [takeChain_some h, h']
    exact congrFun hnext (sofar.extend k c)

/-! ## The whole text -/

/-- The seven loops all end, and the readers give what they collect. Of the blanks a reader keeps
    only what follows. The digits and the argument are no readers of their own, but what an escape
    and a pseudo-class go through. -/
structure LoopsEnd : Prop where
  blanks : blankLoop.Computes Prod.mk blankRun
  digits : digitLoop.Computes Prod.mk hexRun
  escape_eq : ∀ c cs, takeEscape (c :: cs) =
    if isHexDigit c then
      (charOfCodePoint (hexValue (c :: (hexRun (5, cs)).1)), skipOneSpace (hexRun (5, cs)).2)
    else (c, cs)
  names : nameLoop.Computes Prod.mk takeName
  strings : ∀ quote, (quotedLoop quote).Computes (fun items => taken (items.filterMap id))
    (takeQuoted quote)
  arguments : argumentLoop.Computes taken takeArgument
  pseudo_eq : ∀ s cs, startsName s = true → (takeName s).2 = '(' :: cs →
    takePseudo s = takeArgument cs >>= fun argument =>
      (argumentPseudo (lower (String.ofList (takeName s).1)) argument.1 argument.2).map
        (·, argument.2)
  conditions : simpleLoop.Computes taken takeSimples
  chain : chainLoop.Computes chained fun s sofar => takeChain sofar s

theorem loopsEnd : LoopsEnd where
  blanks := blankLoop_computes
  digits := digitLoop_computes
  escape_eq := takeEscape_cons
  names := nameLoop_computes
  strings := quotedLoop_computes
  arguments := argumentLoop_computes
  pseudo_eq _ _ := takePseudo_of_parenthesis
  conditions := simpleLoop_computes
  chain := chainLoop_computes

/-- What is said about a text that is no selector. The position of an error is the length of a
    front of the text, and the fault was found behind that front. -/
structure FaultsInside (s : String) : Prop where
  empty_iff : ofString s = .error .empty ↔ Blanks s.toList
  position_le : ∀ position expectation,
    ofString s = .error (.invalid position expectation) → position ≤ s.length
  stops : ∀ position expectation, ofString s = .error (.invalid position expectation) →
    ∃ front rest, s.toList = front ++ rest ∧ front.length = position ∧
      takeSelector (skipSpace s.toList) = failAt rest expectation

theorem skipSpace_eq_nil_iff {s : List Char} : skipSpace s = [] ↔ Blanks s :=
  List.dropWhile_eq_nil_iff

theorem ofList_eq_empty_iff {s : List Char} : ofList s = .error .empty ↔ Blanks s := by
  rw [← skipSpace_eq_nil_iff]
  refine ⟨fun h => ?_, ofList_of_eq_nil⟩
  by_contra hne
  rw [ofList_of_ne_nil hne] at h
  -- No fault is reported as an empty text.
  match hread : takeSelector (skipSpace s) with
  | .ok x => rw [hread] at h; cases h
  | .error (.expected _ _) => rw [hread] at h; cases h
  | .error (.unsupported _) => rw [hread] at h; cases h

/-- An error at a position comes from a fault with a rest of that text left. -/
theorem exists_failAt {s : List Char} {position : Nat} {expectation : Expectation}
    (h : ofList s = .error (.invalid position expectation)) :
    ∃ front rest, s = front ++ rest ∧ front.length = position ∧
      takeSelector (skipSpace s) = failAt rest expectation := by
  have hne : skipSpace s ≠ [] := by
    intro hnil
    rw [ofList_of_eq_nil hnil] at h
    cases h
  have hwithin := (within_takeSelector (skipSpace s)).mono (skipSpace_suffix s)
  rw [ofList_of_ne_nil hne] at h
  match hread : takeSelector (skipSpace s) with
  | .ok x => rw [hread] at h; cases h
  | .error (.unsupported _) => rw [hread] at h; cases h
  | .error (.expected left cause) =>
      rw [hread] at h hwithin
      -- Not more is left than there is, so the position is a difference of lengths.
      have hleft : left ≤ s.length := hwithin
      cases h
      refine ⟨s.take (s.length - left), s.drop (s.length - left), ?_, ?_, ?_⟩
      · exact (List.take_append_drop _ s).symm
      · rw [List.length_take]
        omega
      · rw [failAt, List.length_drop, Nat.sub_sub_self hleft]

theorem faultsInside (s : String) : FaultsInside s where
  empty_iff := ofList_eq_empty_iff
  position_le position expectation h := by
    obtain ⟨front, rest, hs, hfront, -⟩ := exists_failAt h
    rw [← String.length_toList, hs, List.length_append, hfront]
    exact Nat.le_add_right position rest.length
  stops _ _ h := exists_failAt h

/-- Reading a selector ends: in each of its loops a round that does not end it takes a character.
    A text is empty just where it is made of blanks, and no error is reported behind its end. -/
theorem ofString_ends : LoopsEnd ∧ ∀ s, FaultsInside s :=
  ⟨loopsEnd, faultsInside⟩

/-- A string that is cut short behind a backslash is missed at the very end of the text. -/
theorem ofString_ends_cut_short :
    let s := "\t[x='\\"
    FaultsInside s ∧ ofString s = .error (.invalid s.length .stringEnd) :=
  ⟨ofString_ends.2 _, by decide +kernel⟩

end UniqueSelector
