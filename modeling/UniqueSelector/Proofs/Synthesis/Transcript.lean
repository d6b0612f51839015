/-
  UniqueSelector.Proofs.Synthesis.Transcript

  What a search asks its host, whatever the host answers. A transcript holds the
  questions and their answers; the host with a transcript answers as it did, so
  what is written down is what the search on the host itself is told.

    * `Host.Exchange`, `Host.transcribing` — questions with answers, and the host
      that writes them down.
    * `Asking` — a search with a transcript comes to what it comes to without, and
      what it asked is as `post` says; `Asking.bind`.
    * `InTurn`, `AskedForId`, `AskedForLevel`, `StepTalk` — what is asked by each
      part of a step, and what the part comes to; `asking_step`.
    * `StepTalk.length_scans_le`, `StepTalk.advances` — how much that is, and what a
      level goes on with.

  Nothing is known about the answers: two like questions may be answered in two
  ways, and a selector that finds one element may be refused when it is checked.
-/

import UniqueSelector.Proofs.Synthesis.Level

namespace UniqueSelector

/-! ## Transcripts -/

namespace Host

/-- A question to a host and its answer. -/
inductive Exchange where
  | queryAll (selector : String) (found : List NodeId)
  | check (id : NodeId) (selector : String) (answer : Except QueryError Bool)

/-- The selector of a question for all elements. -/
def Exchange.scan? : Exchange → Option String
  | .queryAll selector _ => some selector
  | .check _ _ _ => none

/-- The selectors that all elements were asked for. -/
def scans (talk : List Exchange) : List String :=
  talk.filterMap Exchange.scan?

/-- One of the selectors found one element. -/
def FoundOne (talk : List Exchange) : Prop :=
  ∃ selector found, Exchange.queryAll selector found ∈ talk ∧ found.length = 1

/-- The host with a transcript of what it was asked and what it answered, in order. -/
def transcribing {σ : Type} (h : Host σ) : Host (σ × List Exchange) where
  queryAll selector := fun (state, talk) =>
    let (found, state) := h.queryAll selector state
    (found, state, talk ++ [.queryAll selector found])
  check id selector := fun (state, talk) =>
    let (answer, state) := h.check id selector state
    (answer, state, talk ++ [.check id selector answer])
  warn w := fun (state, talk) =>
    let (_, state) := h.warn w state
    ((), state, talk)

theorem scans_append (talk more : List Exchange) :
    scans (talk ++ more) = scans talk ++ scans more :=
  List.filterMap_append

theorem scans_queryAll (selector : String) (found : List NodeId) :
    scans [.queryAll selector found] = [selector] :=
  rfl

theorem mem_scans {talk : List Exchange} {selector : String} {found : List NodeId}
    (h : .queryAll selector found ∈ talk) : selector ∈ scans talk :=
  List.mem_filterMap.mpr ⟨_, h, rfl⟩

theorem foundOne_append (talk more : List Exchange) :
    FoundOne (talk ++ more) ↔ FoundOne talk ∨ FoundOne more := by
  simp only [FoundOne, List.mem_append, or_and_right, exists_or]

theorem foundOne_queryAll (selector : String) (found : List NodeId) :
    FoundOne [.queryAll selector found] ↔ found.length = 1 := by
  simp [FoundOne]

theorem not_foundOne_of_scans {talk : List Exchange} (h : scans talk = []) : ¬ FoundOne talk := by
  rintro ⟨selector, found, hmem, -⟩
  have hscan := mem_scans hmem
  rw [h] at hscan
  cases hscan

end Host

namespace Synthesis

open Identifier Host

/-- With a transcript the search comes to what it comes to without one, and `post` holds of what
    it asked and of what it comes to. -/
def Asking {σ α : Type} (x : Search σ α) (x' : Search (σ × List Exchange) α)
    (post : List Exchange → Except SynthesisError α → Prop) : Prop :=
  ∀ state, ∃ more, (∀ talk, x'.run.run (state, talk) =
    ((x.run.run state).1, (x.run.run state).2, talk ++ more)) ∧ post more (x.run.run state).1

section Rules

variable {σ α β : Type} {post : List Exchange → Except SynthesisError α → Prop}

theorem asking_pure {a : α} (h : post [] (.ok a)) :
    Asking (pure a : Search σ α) (pure a) post := by
  intro state
  refine ⟨[], fun talk => ?_, h⟩
  rw [List.append_nil]
  rfl

theorem Asking.mono {x : Search σ α} {x' : Search (σ × List Exchange) α}
    {post' : List Exchange → Except SynthesisError α → Prop} (hx : Asking x x' post)
    (h : ∀ more r, post more r → post' more r) : Asking x x' post' := by
  intro state
  obtain ⟨more, hrun, hpost⟩ := hx state
  exact ⟨more, hrun, h _ _ hpost⟩

/-- What comes first is asked first; after a failure nothing more is asked. -/
theorem Asking.bind {x : Search σ α} {x' : Search (σ × List Exchange) α} {f : α → Search σ β}
    {f' : α → Search (σ × List Exchange) β} {post' : List Exchange → Except SynthesisError β → Prop}
    (hx : Asking x x' post)
    (herror : ∀ more cause, post more (.error cause) → post' more (.error cause))
    (hok : ∀ more a, post more (.ok a) →
      Asking (f a) (f' a) fun rest r => post' (more ++ rest) r) :
    Asking (x >>= f) (x' >>= f') post' := by
  intro state
  obtain ⟨more, hrun, hpost⟩ := hx state
  cases hself : x.run.run state with
  | mk r state' =>
      rw [hself] at hrun hpost
      cases r with
      | error cause =>
          rw [run_bind_error hself]
          exact ⟨more, fun talk => run_bind_error (hrun talk), herror _ _ hpost⟩
      | ok a =>
          obtain ⟨rest, hrest, hpost'⟩ := hok _ _ hpost state'
          rw [run_bind_ok hself]
          refine ⟨more ++ rest, fun talk => ?_, hpost'⟩
          rw [run_bind_ok (hrun talk), hrest (talk ++ more), List.append_assoc]

/-- Nothing is asked for what is only computed. -/
theorem asking_liftEscape_bind {result : Except EscapeError α} {f : α → Search σ β}
    {f' : α → Search (σ × List Exchange) β} {post' : List Exchange → Except SynthesisError β → Prop}
    (herror : ∀ cause, result = .error cause → post' [] (.error (.escape cause)))
    (hok : ∀ a, result = .ok a → Asking (f a) (f' a) post') :
    Asking (liftEscape result >>= f) (liftEscape result >>= f') post' := by
  cases result with
  | error cause =>
      intro state
      refine ⟨[], fun talk => ?_, herror cause rfl⟩
      rw [List.append_nil]
      rfl
  | ok a => exact hok a rfl

end Rules

/-! ## Single questions -/

variable {σ : Type} (h : Host σ)

theorem asking_picksOut (id : NodeId) (text : String) :
    Asking (picksOut h id text) (picksOut h.transcribing id text) fun more r =>
      ∃ answer, more = [.check id text answer] ∧ r = answer.mapError .query :=
  fun state => ⟨[.check id text (h.check id text state).1], fun _ => rfl, _, rfl, rfl⟩

theorem asking_isUnique (text : String) :
    Asking (liftM (h.isUnique text) : Search σ Bool) (liftM (h.transcribing.isUnique text))
      fun more r => ∃ ids, more = [.queryAll text ids] ∧ r = .ok (ids.length == 1) :=
  fun state => ⟨[.queryAll text (h.queryAll text state).1], fun _ => rfl, _, rfl, rfl⟩

theorem asking_warn (w : Warning) :
    Asking (liftM (h.warn w) : Search σ Unit) (liftM (h.transcribing.warn w))
      fun more r => more = [] ∧ r = .ok () := by
  intro state
  refine ⟨[], fun talk => ?_, rfl, rfl⟩
  rw [List.append_nil]
  rfl

/-! ## Siblings -/

/-- The elements of a list are checked in turn, up to the first that is picked out or cannot be
    checked. -/
inductive InTurn (text : String) :
    List NodeId → List Exchange → Except SynthesisError Bool → Prop
  | none : InTurn text [] [] (.ok false)
  | picked {id : NodeId} {rest : List NodeId} :
      InTurn text (id :: rest) [.check id text (.ok true)] (.ok true)
  | fails {id : NodeId} {rest : List NodeId} {cause : QueryError} :
      InTurn text (id :: rest) [.check id text (.error cause)] (.error (.query cause))
  | passed {id : NodeId} {rest : List NodeId} {checks : List Exchange}
      {r : Except SynthesisError Bool} (hrest : InTurn text rest checks r) :
      InTurn text (id :: rest) (.check id text (.ok false) :: checks) r

theorem InTurn.scans_eq_nil {text : String} {ids : List NodeId} {checks : List Exchange}
    {r : Except SynthesisError Bool} (h : InTurn text ids checks r) : scans checks = [] := by
  induction h with
  | none => rfl
  | picked => rfl
  | fails => rfl
  | passed _ ih => exact ih

theorem asking_picksAny (text : String) (ids : List NodeId) :
    Asking (picksAny h text ids) (picksAny h.transcribing text ids) (InTurn text ids) := by
  induction ids with
  | nil => exact asking_pure InTurn.none
  | cons id rest ih =>
      rw [picksAny, picksAny]
      apply (asking_picksOut h id text).bind
      · rintro more cause ⟨answer, rfl, hanswer⟩
        cases answer with
        | ok picked => cases hanswer
        | error refused =>
            cases hanswer
            exact InTurn.fails
      · rintro more picked ⟨answer, rfl, hanswer⟩
        cases answer with
        | error refused => cases hanswer
        | ok picked' =>
            cases hanswer
            -- After the first that is picked out no other is checked.
            cases picked with
            | true => exact asking_pure InTurn.picked
            | false => exact ih.mono fun checks r hrest => InTurn.passed hrest

/-- What is written behind the features, by what the checks came to. -/
def placeIf (t : Tree) (node : NodeId) (shared : Bool) : String :=
  if shared then placeFragment t node else ""

theorem asking_tieBreaker (t : Tree) (node : NodeId) (text : String) :
    Asking (tieBreaker h t node text) (tieBreaker h.transcribing t node text) fun checks r =>
      ∃ answer, InTurn text (others t node) checks answer ∧ r = answer.map (placeIf t node) := by
  rw [tieBreaker, tieBreaker]
  apply (asking_picksAny h text (others t node)).bind
  · intro checks cause hchecks
    exact ⟨_, hchecks, rfl⟩
  · intro checks shared hchecks
    cases shared with
    | true => exact asking_pure ⟨_, by rw [List.append_nil]; exact hchecks, rfl⟩
    | false => exact asking_pure ⟨_, by rw [List.append_nil]; exact hchecks, rfl⟩

/-! ## The id -/

/-- The selector that names the id of an element, where the id is no volatile one. -/
structure IdText (t : Tree) (node : NodeId) (selector : String) : Prop where
  written : ∃ id e, t.attribute? node "id" = some id ∧ id ≠ "" ∧ escape id = .ok e ∧
    selector = "#" ++ e
  steady : Text.contains selector volatileIdMark = false

/-- What is asked for the id of an element: how many have it, if there is one to ask for. -/
inductive AskedForId (t : Tree) (node : NodeId) :
    List Exchange → Except SynthesisError (Option String) → Prop
  | silent : AskedForId t node [] (.ok none)
  | unwritten {cause : EscapeError} : AskedForId t node [] (.error (.escape cause))
  | own {selector : String} {found : List NodeId} (htext : IdText t node selector)
      (hone : found.length = 1) : AskedForId t node [.queryAll selector found] (.ok (some selector))
  | common {selector : String} {found : List NodeId} (htext : IdText t node selector)
      (hmany : found.length ≠ 1) : AskedForId t node [.queryAll selector found] (.ok none)

theorem asking_idSelector? (t : Tree) (node : NodeId) :
    Asking (idSelector? h t node) (idSelector? h.transcribing t node) (AskedForId t node) := by
  rw [idSelector?, idSelector?]
  cases hid : (t.attribute? node "id").filter (· != "") with
  | none => exact asking_pure AskedForId.silent
  | some id =>
      obtain ⟨hhas, hne⟩ := Option.filter_eq_some_iff.mp hid
      dsimp only
      apply asking_liftEscape_bind
      · intro cause _
        exact AskedForId.unwritten
      · intro e hwritten
        by_cases hvolatile : Text.contains ("#" ++ e) volatileIdMark = true
        · -- A warning is given, and nothing is asked.
          rw [if_pos hvolatile, if_pos hvolatile]
          apply (asking_warn h _).bind
          · rintro more cause ⟨-, hcause⟩
            cases hcause
          · rintro more _ ⟨rfl, -⟩
            exact asking_pure AskedForId.silent
        · rw [if_neg hvolatile, if_neg hvolatile]
          have htext : IdText t node ("#" ++ e) :=
            { written := ⟨id, e, hhas, by simpa using hne, hwritten, rfl⟩
              steady := by simpa using hvolatile }
          apply (asking_isUnique h _).bind
          · rintro more cause ⟨found, -, hcause⟩
            cases hcause
          · rintro more one ⟨found, rfl, hone⟩
            cases hone
            by_cases hlength : found.length = 1
            · simp only [hlength, beq_self_eq_true, if_true]
              exact asking_pure (AskedForId.own htext hlength)
            · simp only [beq_iff_eq, hlength, if_false]
              exact asking_pure (AskedForId.common htext hlength)

/-! ## A level -/

theorem asking_becomesUnique (known : Bool) (text : String) :
    Asking (becomesUnique h known text) (becomesUnique h.transcribing known text) fun more r =>
      (known = true ∧ more = [] ∧ r = .ok true) ∨
        (known = false ∧ ∃ ids, more = [.queryAll text ids] ∧ r = .ok (ids.length == 1)) := by
  cases known with
  | true => exact asking_pure (Or.inl ⟨rfl, rfl, rfl⟩)
  | false =>
      rw [becomesUnique, becomesUnique]
      exact (asking_isUnique h text).mono fun more r hasked => Or.inr ⟨rfl, hasked⟩

/-- What is asked to describe an element of which no id is known: which of its siblings its
    features pick out, and how many elements its fragment finds, unless the path is unique as it
    is. The mark of the document element is not part of what is asked. -/
inductive AskedForLevel (t : Tree) (a : Ascent) (p : Profile) :
    List Exchange → Except SynthesisError (String × Bool) → Prop
  | unwritten {cause : EscapeError} : AskedForLevel t a p [] (.error (.escape cause))
  | fails {text : String} {checks : List Exchange} {cause : SynthesisError}
      (htext : p.describe (max a.featureCount 1) = .ok text)
      (hchecks : InTurn text (others t a.node) checks (.error cause)) :
      AskedForLevel t a p checks (.error cause)
  | known {text fragment : String} {checks : List Exchange} {shared : Bool}
      (htext : p.describe (max a.featureCount 1) = .ok text)
      (hchecks : InTurn text (others t a.node) checks (.ok shared))
      (hfragment : fragment = text ++ placeIf t a.node shared) (hknown : a.isUnique = true) :
      AskedForLevel t a p checks (.ok (topMark t a.node fragment true, true))
  | asked {text fragment : String} {checks : List Exchange} {shared : Bool} {found : List NodeId}
      (htext : p.describe (max a.featureCount 1) = .ok text)
      (hchecks : InTurn text (others t a.node) checks (.ok shared))
      (hfragment : fragment = text ++ placeIf t a.node shared) (hopen : a.isUnique = false) :
      AskedForLevel t a p (checks ++ [.queryAll fragment found])
        (.ok (topMark t a.node fragment (found.length == 1), found.length == 1))

theorem asking_topMark {t : Tree} {node : NodeId} {fragment : String} {isUnique : Bool}
    {post : List Exchange → Except SynthesisError (String × Bool) → Prop}
    (hpost : post [] (.ok (topMark t node fragment isUnique, isUnique))) :
    Asking (if !isUnique && t.documentElement? == some node then
        pure (fragment ++ ":root", isUnique)
      else pure (fragment, isUnique) : Search σ (String × Bool))
      (if !isUnique && t.documentElement? == some node then pure (fragment ++ ":root", isUnique)
      else pure (fragment, isUnique)) post := by
  rw [topMark] at hpost
  split
  · rename_i hmark
    rw [if_pos hmark] at hpost
    exact asking_pure hpost
  · rename_i hmark
    rw [if_neg hmark] at hpost
    exact asking_pure hpost

theorem asking_describeLevel (t : Tree) (a : Ascent) (p : Profile) :
    Asking (describeLevel h t a p) (describeLevel h.transcribing t a p) (AskedForLevel t a p) := by
  rw [describeLevel, describeLevel]
  apply asking_liftEscape_bind
  · intro cause _
    exact AskedForLevel.unwritten
  · intro text htext
    apply (asking_tieBreaker h t a.node text).bind
    · rintro checks cause ⟨answer, hchecks, hanswer⟩
      cases answer with
      | ok shared => cases hanswer
      | error failed =>
          cases hanswer
          exact AskedForLevel.fails htext hchecks
    · rintro checks place ⟨answer, hchecks, hanswer⟩
      cases answer with
      | error failed => cases hanswer
      | ok shared =>
          cases hanswer
          dsimp only
          -- The place is known by now, and the fragment is asked for with it.
          apply (asking_becomesUnique h a.isUnique (text ++ placeIf t a.node shared)).bind
          · rintro more cause (⟨-, -, hcause⟩ | ⟨-, _, -, hcause⟩)
            · cases hcause
            · cases hcause
          · rintro more isUnique (⟨hknown, rfl, hunique⟩ | ⟨hopen, found, rfl, hunique⟩)
            · cases hunique
              apply asking_topMark
              rw [List.append_nil, List.append_nil]
              exact AskedForLevel.known htext hchecks rfl hknown
            · cases hunique
              apply asking_topMark
              rw [List.append_nil]
              exact AskedForLevel.asked htext hchecks rfl hopen

/-! ## A step -/

/-- What is asked by one level of the climb, and what the level comes to. -/
inductive StepTalk (t : Tree) (a : Ascent) : List Exchange → Except SynthesisError Step → Prop
  | idFails {talk : List Exchange} {cause : SynthesisError}
      (hid : AskedForId t a.node talk (.error cause)) : StepTalk t a talk (.error cause)
  | closes {talk : List Exchange} {selector : String}
      (hid : AskedForId t a.node talk (.ok (some selector))) :
      StepTalk t a talk (.ok (a.advance t selector true false))
  | unread {talk : List Exchange} {cause : EscapeError}
      (hid : AskedForId t a.node talk (.ok none)) : StepTalk t a talk (.error (.escape cause))
  | levelFails {talk more : List Exchange} {p : Profile} {cause : SynthesisError}
      (hid : AskedForId t a.node talk (.ok none)) (hp : Profile.ofNode? t a.node = .ok (some p))
      (hlevel : AskedForLevel t a p more (.error cause)) :
      StepTalk t a (talk ++ more) (.error cause)
  | describes {talk more : List Exchange} {p : Profile} {fragment : String} {isUnique : Bool}
      (hid : AskedForId t a.node talk (.ok none)) (hp : Profile.ofNode? t a.node = .ok (some p))
      (hlevel : AskedForLevel t a p more (.ok (fragment, isUnique))) :
      StepTalk t a (talk ++ more)
        (.ok (a.advance t fragment isUnique (a.depth != 0 || !isUnique)))

theorem asking_step {t : Tree} {a : Ascent} (hnode : t.isElement a.node = true) :
    Asking (a.step h t) (a.step h.transcribing t) (StepTalk t a) := by
  obtain ⟨e, he⟩ := (t.isElement_iff a.node).mp hnode
  rw [Ascent.step, Ascent.step]
  apply (asking_idSelector? h t a.node).bind
  · intro talk cause hid
    exact StepTalk.idFails hid
  · intro talk selector? hid
    cases selector? with
    | some selector =>
        -- An id that stands for the element ends the level.
        apply asking_pure
        rw [List.append_nil]
        exact StepTalk.closes hid
    | none =>
        dsimp only
        apply asking_liftEscape_bind
        · intro cause _
          rw [List.append_nil]
          exact StepTalk.unread hid
        · intro p? hp
          cases p? with
          -- The node is an element, so there is a profile.
          | none => exact absurd hp (Profile.ofNode?_ne_none he)
          | some p =>
              dsimp only
              apply (asking_describeLevel h t a p).bind
              · intro more cause hlevel
                exact StepTalk.levelFails hid hp hlevel
              · rintro more ⟨fragment, isUnique⟩ hlevel
                apply asking_pure
                rw [List.append_nil]
                exact StepTalk.describes hid hp hlevel

/-! ## How much is asked -/

section Counts

variable {t : Tree} {node : NodeId} {a : Ascent} {p : Profile} {talk : List Exchange}

theorem AskedForId.length_scans_le {r : Except SynthesisError (Option String)}
    (h : AskedForId t node talk r) : (scans talk).length ≤ 1 := by
  cases h with
  | silent => exact Nat.zero_le 1
  | unwritten => exact Nat.zero_le 1
  | own => exact Nat.le_refl 1
  | common => exact Nat.le_refl 1

theorem AskedForLevel.length_scans_le {r : Except SynthesisError (String × Bool)}
    (h : AskedForLevel t a p talk r) : (scans talk).length ≤ 1 := by
  cases h with
  | unwritten => exact Nat.zero_le 1
  | fails _ hchecks =>
      rw [hchecks.scans_eq_nil]
      exact Nat.zero_le 1
  | known _ hchecks _ _ =>
      rw [hchecks.scans_eq_nil]
      exact Nat.zero_le 1
  | asked _ hchecks _ _ =>
      rw [scans_append, hchecks.scans_eq_nil, scans_queryAll]
      exact Nat.le_refl 1

/-- A level asks for all elements twice at most: for its id and for its fragment. -/
theorem StepTalk.length_scans_le {r : Except SynthesisError Step} (h : StepTalk t a talk r) :
    (scans talk).length ≤ 2 := by
  cases h with
  | idFails hid => exact Nat.le_succ_of_le hid.length_scans_le
  | closes hid => exact Nat.le_succ_of_le hid.length_scans_le
  | unread hid => exact Nat.le_succ_of_le hid.length_scans_le
  | levelFails hid _ hlevel =>
      rw [scans_append, List.length_append]
      exact Nat.add_le_add hid.length_scans_le hlevel.length_scans_le
  | describes hid _ hlevel =>
      rw [scans_append, List.length_append]
      exact Nat.add_le_add hid.length_scans_le hlevel.length_scans_le

end Counts

/-! ## What a level makes of the answers -/

section Answers

variable {t : Tree} {node : NodeId} {a : Ascent} {p : Profile} {talk : List Exchange}

theorem AskedForId.foundOne {selector : String} (h : AskedForId t node talk (.ok (some selector))) :
    FoundOne talk := by
  cases h with
  | own _ hone => exact (foundOne_queryAll _ _).mpr hone

theorem AskedForId.not_foundOne (h : AskedForId t node talk (.ok none)) : ¬ FoundOne talk := by
  cases h with
  | silent => exact not_foundOne_of_scans rfl
  | common _ hmany => exact fun hfound => hmany ((foundOne_queryAll _ _).mp hfound)

theorem AskedForLevel.isUnique_iff {fragment : String} {isUnique : Bool}
    (h : AskedForLevel t a p talk (.ok (fragment, isUnique))) :
    isUnique = true ↔ a.isUnique = true ∨ FoundOne talk := by
  cases h with
  -- Nothing was asked for all elements, and nothing had to be.
  | known _ _ _ hknown => simp [hknown]
  | asked _ hchecks _ hopen =>
      rw [foundOne_append, foundOne_queryAll, hopen, beq_iff_eq]
      simp [not_foundOne_of_scans hchecks.scans_eq_nil]

/-- The selector is of one level, or no longer than the fragment. -/
def Aimed (fragment selector : String) : Prop :=
  ¬ " > ".toList <:+: selector.toList ∨ selector.length ≤ fragment.length

theorem IdText.no_gap {selector : String} (h : IdText t node selector) :
    ¬ " > ".toList <:+: selector.toList := by
  obtain ⟨id, e, -, -, he, rfl⟩ := h.written
  rintro ⟨before, after, hcut⟩
  have hshielded : Shielded ("#" ++ e).toList := by
    rw [String.toList_append, nameText_of_escape he]
    exact (shielded_of_not_mem (by decide)).append (shielded_escapeChars id.toList)
  -- In a gap it is a space that stands before the `>`.
  have hsplit : ("#" ++ e).toList = (before ++ [' ']) ++ '>' :: (' ' :: after) := by
    rw [← hcut]
    simp
  obtain ⟨front, hfront⟩ := hshielded _ _ hsplit
  exact absurd (List.append_inj_right' hfront rfl) (by decide)

theorem AskedForId.aimed {r : Except SynthesisError (Option String)}
    (h : AskedForId t node talk r) (fragment : String) :
    ∀ selector ∈ scans talk, Aimed fragment selector := by
  intro selector hselector
  cases h with
  | silent => cases hselector
  | unwritten => cases hselector
  | own htext =>
      rw [scans_queryAll, List.mem_singleton] at hselector
      rw [hselector]
      exact Or.inl htext.no_gap
  | common htext =>
      rw [scans_queryAll, List.mem_singleton] at hselector
      rw [hselector]
      exact Or.inl htext.no_gap

theorem length_le_topMark (t : Tree) (node : NodeId) (fragment : String) (isUnique : Bool) :
    fragment.length ≤ (topMark t node fragment isUnique).length := by
  rw [topMark]
  split
  · rw [String.length_append]
    exact Nat.le_add_right _ _
  · exact Nat.le_refl _

theorem AskedForLevel.aimed {fragment : String} {isUnique : Bool}
    (h : AskedForLevel t a p talk (.ok (fragment, isUnique))) :
    ∀ selector ∈ scans talk, Aimed fragment selector := by
  intro selector hselector
  cases h with
  | known _ hchecks _ _ =>
      rw [hchecks.scans_eq_nil] at hselector
      cases hselector
  | asked _ hchecks _ _ =>
      rw [scans_append, hchecks.scans_eq_nil, scans_queryAll, List.nil_append,
        List.mem_singleton] at hselector
      rw [hselector]
      exact Or.inr (length_le_topMark t a.node _ _)

/-- A level that does not fail goes on with a fragment. The path is unique by it if it was before,
    or if the level found one element. -/
theorem StepTalk.advances {step : Step} (h : StepTalk t a talk (.ok step)) :
    ∃ fragment isUnique goesOn, step = a.advance t fragment isUnique goesOn ∧
      (isUnique = true ↔ a.isUnique = true ∨ FoundOne talk) ∧
      ∀ selector ∈ scans talk, Aimed fragment selector := by
  cases h with
  | closes hid => exact ⟨_, _, _, rfl, by simp [hid.foundOne], hid.aimed _⟩
  | describes hid _ hlevel =>
      refine ⟨_, _, _, rfl, ?_, ?_⟩
      · rw [foundOne_append, hlevel.isUnique_iff]
        simp [hid.not_foundOne]
      · intro selector hselector
        rw [scans_append, List.mem_append] at hselector
        rcases hselector with hselector | hselector
        · exact hid.aimed _ selector hselector
        · exact hlevel.aimed selector hselector

end Answers

end Synthesis

end UniqueSelector
