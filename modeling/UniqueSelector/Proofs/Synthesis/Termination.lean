/-
  UniqueSelector.Proofs.Synthesis.Termination

  The search ends and asks little, whatever its host answers and in whatever tree
  where no node is above itself.

    * `Ends` — the loop of the search, which nothing bounds; `run_climb_of_ends` —
      where it ends, the bounded climb comes to the same.
    * `Stands` — the invariant: what a level knows about the levels below is what
      they were told. `Stands.exists_ends` is the run lemma.
    * `Ends.joins` — what becomes of the fragments that were asked for.
    * `synthesize_frugal` — all of it together, as `Frugal` says it.

  The answers decide how far the climb goes, so the measure is of the tree alone:
  each step is one element further up the line to the top.
-/

import UniqueSelector.Proofs.Synthesis.Climb
import UniqueSelector.Proofs.Synthesis.ClosedForm
import UniqueSelector.Proofs.Synthesis.Transcript

namespace UniqueSelector.Synthesis

open Host

/-! ## The loop -/

/-- The loop of the search from a level on: it ends with `result` and leaves the host in the state
    `final`. For each level `talks` has what was asked there. -/
inductive Ends {σ : Type} (h : Host σ) (t : Tree) :
    Ascent → σ → List (List Exchange) → Except SynthesisError String → σ → Prop
  | fails {a : Ascent} {state final : σ} {talk : List Exchange} {cause : SynthesisError}
      (hstep : (a.step h.transcribing t).run.run (state, []) = (.error cause, final, talk)) :
      Ends h t a state [talk] (.error cause) final
  | done {a : Ascent} {state final : σ} {talk : List Exchange} {path : String}
      (hstep : (a.step h.transcribing t).run.run (state, []) = (.ok (.done path), final, talk)) :
      Ends h t a state [talk] (.ok path) final
  | climbs {a b : Ascent} {state next final : σ} {talk : List Exchange}
      {talks : List (List Exchange)} {result : Except SynthesisError String}
      (hstep : (a.step h.transcribing t).run.run (state, []) = (.ok (.climb b), next, talk))
      (hrest : Ends h t b next talks result final) :
      Ends h t a state (talk :: talks) result final

section Loop

variable {σ : Type} {h : Host σ} {t : Tree} {a b : Ascent} {state final : σ}
  {talk : List Exchange} {talks : List (List Exchange)} {result : Except SynthesisError String}

/-- What is known of a step from its transcript. -/
theorem step_of_transcript (hnode : t.isElement a.node = true) {r : Except SynthesisError Step}
    (hstep : (a.step h.transcribing t).run.run (state, []) = (r, final, talk)) :
    (a.step h t).run.run state = (r, final) ∧
      (∀ before, (a.step h.transcribing t).run.run (state, before) = (r, final, before ++ talk)) ∧
      StepTalk t a talk r := by
  obtain ⟨more, hrun, hpost⟩ := asking_step h hnode state
  rw [hrun [], List.nil_append, Prod.mk.injEq, Prod.mk.injEq] at hstep
  obtain ⟨rfl, rfl, rfl⟩ := hstep
  exact ⟨rfl, hrun, hpost⟩

/-- A step that climbs leads to the parent element. -/
theorem StepTalk.climb_cases (htalk : StepTalk t a talk (.ok (.climb b))) :
    ∃ parent fragment isUnique, t.parentElement? a.node = some parent ∧
      b = a.above parent fragment isUnique ∧
      (isUnique = true ↔ a.isUnique = true ∨ FoundOne talk) ∧
      ∀ selector ∈ scans talk, Aimed fragment selector := by
  obtain ⟨fragment, isUnique, goesOn, hadvance, hunique, haimed⟩ := htalk.advances
  rcases advance_cases t a fragment isUnique goesOn with ⟨parent, hparent, heq⟩ | ⟨heq, -⟩
  · rw [heq] at hadvance
    cases hadvance
    exact ⟨parent, fragment, isUnique, hparent, rfl, hunique, haimed⟩
  · rw [heq] at hadvance
    cases hadvance

/-- A step that ends the climb joins its fragment to those below. -/
theorem StepTalk.done_cases {path : String} (htalk : StepTalk t a talk (.ok (.done path))) :
    ∃ fragment, path = joinLevels (fragment :: a.below) ∧
      ∀ selector ∈ scans talk, Aimed fragment selector := by
  obtain ⟨fragment, isUnique, goesOn, hadvance, -, haimed⟩ := htalk.advances
  rcases advance_cases t a fragment isUnique goesOn with ⟨parent, -, heq⟩ | ⟨heq, -⟩
  · rw [heq] at hadvance
    cases hadvance
  · rw [heq] at hadvance
    cases hadvance
    exact ⟨fragment, rfl, haimed⟩

theorem StepTalk.isElement_of_climb (htalk : StepTalk t a talk (.ok (.climb b))) :
    t.isElement b.node = true := by
  obtain ⟨parent, fragment, isUnique, hparent, rfl, -⟩ := htalk.climb_cases
  exact (parent?_of_parentElement? hparent).2

/-- The bounded climb is the loop, where the bound is as large as the number of levels. -/
theorem run_climb_of_ends (hends : Ends h t a state talks result final)
    (hnode : t.isElement a.node = true) {bound : Nat} (hbound : talks.length ≤ bound) :
    (climb h t bound a).run.run state = (result, final) ∧
      ∀ before, (climb h.transcribing t bound a).run.run (state, before) =
        (result, final, before ++ talks.flatten) := by
  induction hends generalizing bound with
  | @fails a state final talk cause hstep =>
      obtain ⟨bound, rfl⟩ := Nat.exists_eq_succ_of_ne_zero (Nat.ne_zero_of_lt hbound)
      obtain ⟨hself, hbefore, -⟩ := step_of_transcript hnode hstep
      constructor
      · rw [climb, run_bind_error hself]
      · intro before
        rw [climb, run_bind_error (hbefore before), List.flatten_singleton]
  | @done a state final talk selector hstep =>
      obtain ⟨bound, rfl⟩ := Nat.exists_eq_succ_of_ne_zero (Nat.ne_zero_of_lt hbound)
      obtain ⟨hself, hbefore, -⟩ := step_of_transcript hnode hstep
      constructor
      · rw [climb, run_bind_ok hself]
        rfl
      · intro before
        rw [climb, run_bind_ok (hbefore before), List.flatten_singleton]
        rfl
  | @climbs a b state next final talk talks result hstep hrest ih =>
      obtain ⟨bound, rfl⟩ := Nat.exists_eq_succ_of_ne_zero (Nat.ne_zero_of_lt hbound)
      obtain ⟨hself, hbefore, htalk⟩ := step_of_transcript hnode hstep
      obtain ⟨hrun, hrunBefore⟩ := ih htalk.isElement_of_climb (Nat.le_of_succ_le_succ hbound)
      -- What was asked at this level stands before what is asked above it.
      constructor
      · rw [climb, run_bind_ok hself]
        exact hrun
      · intro before
        rw [climb, run_bind_ok (hbefore before), List.flatten_cons, ← List.append_assoc]
        exact hrunBefore (before ++ talk)

end Loop

/-! ## The levels -/

/-- A level behind the levels of which `before` has what was asked there. The elements of the
    levels are `n 0`, `n 1` and so on. -/
structure Stands (n : Nat → NodeId) (options : Options) (before : List (List Exchange))
    (a : Ascent) : Prop where
  node : a.node = n before.length
  featureCount : max a.featureCount 1 = budget options before.length
  isUnique : a.isUnique = true ↔ options.isUnique = true ∨ ∃ talk ∈ before, FoundOne talk

section Levels

variable {n : Nat → NodeId} {options : Options} {before : List (List Exchange)} {a : Ascent}

theorem stands_start (n : Nat → NodeId) (options : Options) :
    Stands n options [] (Ascent.start (n 0) options) where
  node := rfl
  featureCount := by simp [Ascent.start, budget]
  isUnique := by simp [Ascent.start]

theorem Stands.above (h : Stands n options before a) {talk : List Exchange} {isUnique : Bool}
    (hunique : isUnique = true ↔ a.isUnique = true ∨ FoundOne talk) (fragment : String) :
    Stands n options (before ++ [talk]) (a.above (n (before.length + 1)) fragment isUnique) where
  node := by
    rw [List.length_append]
    rfl
  featureCount := by
    rw [List.length_append]
    rfl
  isUnique := by
    rw [Ascent.above, hunique, h.isUnique]
    simp only [List.mem_append, List.mem_singleton, or_and_right, exists_or, exists_eq_left,
      or_assoc]

/-- At each level of `talks` the answers to the levels before decide what may be asked. -/
def Asked (t : Tree) (n : Nat → NodeId) (options : Options) (before talks : List (List Exchange)) :
    Prop :=
  ∀ i talk, talks[i]? = some talk →
    ∃ a outcome, Stands n options (before ++ talks.take i) a ∧ StepTalk t a talk outcome

theorem Asked.cons {t : Tree} {talk : List Exchange} {talks : List (List Exchange)}
    {r : Except SynthesisError Step} (h : Stands n options before a) (htalk : StepTalk t a talk r)
    (hrest : Asked t n options (before ++ [talk]) talks) :
    Asked t n options before (talk :: talks) := by
  intro i talk' hi
  cases i with
  -- No level of `talks` is before the first.
  | zero =>
      rw [List.getElem?_cons_zero, Option.some.injEq] at hi
      rw [List.take_zero, List.append_nil, ← hi]
      exact ⟨a, r, h, htalk⟩
  | succ i =>
      rw [List.getElem?_cons_succ] at hi
      rw [List.take_succ_cons, List.append_cons]
      exact hrest i talk' hi

theorem asked_nil (t : Tree) (n : Nat → NodeId) (options : Options)
    (before : List (List Exchange)) : Asked t n options before [] := by
  intro i talk hi
  cases hi

/-- The step lemma: a level that climbs is below the top and leads to the next one on the line. -/
theorem Stands.climb {t : Tree} {r : Nat} (hline : t.Line n r) (h : Stands n options before a)
    (hle : before.length ≤ r) {talk : List Exchange} {b : Ascent}
    (htalk : StepTalk t a talk (.ok (.climb b))) :
    before.length < r ∧ Stands n options (before ++ [talk]) b := by
  obtain ⟨parent, fragment, isUnique, hparent, rfl, hunique, -⟩ := htalk.climb_cases
  rw [h.node] at hparent
  rcases Nat.lt_or_eq_of_le hle with hlt | htop
  · -- The parent element is the next one on the line.
    obtain rfl := Option.some.inj ((hline.parent before.length hlt).symm.trans hparent)
    exact ⟨hlt, h.above hunique fragment⟩
  · rw [htop, hline.top] at hparent
    cases hparent

/-- The run lemma: where `k` elements are left on the line, the loop ends within `k` levels. -/
theorem Stands.exists_ends {σ : Type} (h : Host σ) {t : Tree} {r k : Nat} (hline : t.Line n r)
    (hstands : Stands n options before a) (hle : before.length ≤ r)
    (hk : before.length + k = r + 1) (state : σ) :
    ∃ talks result final, Ends h t a state talks result final ∧ talks.length ≤ k ∧
      Asked t n options before talks := by
  induction k generalizing before a state with
  | zero => omega
  | succ k ih =>
      have hnode : t.isElement a.node = true := by
        rw [hstands.node]
        exact hline.isElement_at hle
      -- One step, whatever it is told.
      cases hstep : (a.step h.transcribing t).run.run (state, []) with
      | mk outcome rest =>
          obtain ⟨state', talk⟩ := rest
          obtain ⟨-, -, htalk⟩ := step_of_transcript hnode hstep
          have hone : Asked t n options before [talk] :=
            Asked.cons hstands htalk (asked_nil t n options _)
          cases outcome with
          | error cause =>
              exact ⟨[talk], _, state', Ends.fails hstep, Nat.succ_le_succ (Nat.zero_le k), hone⟩
          | ok next =>
              cases next with
              | done selector =>
                  exact ⟨[talk], _, state', Ends.done hstep, Nat.succ_le_succ (Nat.zero_le k), hone⟩
              | climb b =>
                  obtain ⟨hlt, hb⟩ := hstands.climb hline hle htalk
                  have hlength : (before ++ [talk]).length = before.length + 1 :=
                    List.length_append
                  obtain ⟨talks, result, final, hends, hshort, hasked⟩ :=
                    ih hb (by omega) (by omega) state'
                  exact ⟨talk :: talks, result, final, Ends.climbs hstep hends,
                    Nat.succ_le_succ hshort, Asked.cons hstands htalk hasked⟩

end Levels

/-! ## The joined path -/

/-- The path that is joined has a fragment for each level, and none of the levels asked for more
    than its own. -/
theorem Ends.joins {σ : Type} {h : Host σ} {t : Tree} {a : Ascent} {state final : σ}
    {talks : List (List Exchange)} {path : String}
    (hends : Ends h t a state talks (.ok path) final) (hnode : t.isElement a.node = true) :
    ∃ fragments, path = joinLevels (fragments ++ a.below) ∧ talks.length = fragments.length ∧
      ∀ selector ∈ scans talks.flatten, ∃ fragment ∈ fragments, Aimed fragment selector := by
  -- The levels end with the top one, so each level adds its fragment at the back.
  generalize hresult : Except.ok path = result at hends
  induction hends with
  | fails => cases hresult
  | @done a state final talk selector hstep =>
      cases hresult
      obtain ⟨-, -, htalk⟩ := step_of_transcript hnode hstep
      obtain ⟨fragment, hpath, haimed⟩ := htalk.done_cases
      refine ⟨[fragment], hpath, rfl, fun selector hselector => ?_⟩
      rw [List.flatten_singleton] at hselector
      exact ⟨fragment, List.mem_singleton_self _, haimed selector hselector⟩
  | @climbs a b state next final talk talks result hstep hrest ih =>
      obtain ⟨-, -, htalk⟩ := step_of_transcript hnode hstep
      obtain ⟨fragments, hpath, hlength, hrestAimed⟩ := ih htalk.isElement_of_climb hresult
      obtain ⟨parent, fragment, isUnique, -, rfl, -, haimed⟩ := htalk.climb_cases
      refine ⟨fragments ++ [fragment], ?_, ?_, fun selector hselector => ?_⟩
      · rw [hpath, ← List.append_cons]
        rfl
      · rw [List.length_cons, List.length_append, hlength]
        rfl
      · rw [List.flatten_cons, scans_append, List.mem_append] at hselector
        rcases hselector with hselector | hselector
        · exact ⟨fragment, List.mem_append_right _ (List.mem_singleton_self _),
            haimed selector hselector⟩
        · obtain ⟨above, hmem, habove⟩ := hrestAimed selector hselector
          exact ⟨above, List.mem_append_left _ hmem, habove⟩

theorem Aimed.ne_joinLevels {first second fragment selector : String} {rest : List String}
    (h : Aimed fragment selector) (hmem : fragment ∈ first :: second :: rest) :
    selector ≠ joinLevels (first :: second :: rest) := by
  rintro rfl
  rcases h with hgap | hlength
  · exact hgap (gap_infix_joinLevels first second rest)
  · exact absurd (length_lt_joinLevels hmem) (Nat.not_lt_of_le hlength)

/-- No host is asked for the path that comes of several levels. -/
theorem Ends.path_not_mem_scans {σ : Type} {h : Host σ} {t : Tree} {node : NodeId}
    {options : Options} {state final : σ} {talks : List (List Exchange)} {path : String}
    (hends : Ends h t (Ascent.start node options) state talks (.ok path) final)
    (hnode : t.isElement node = true) (hlevels : 2 ≤ talks.length) :
    path ∉ scans talks.flatten := by
  obtain ⟨fragments, hpath, hlength, haimed⟩ := hends.joins hnode
  intro hasked
  obtain ⟨fragment, hmem, hfragment⟩ := haimed path hasked
  rw [Ascent.start, List.append_nil] at hpath
  rw [hlength] at hlevels
  -- There is a fragment for each level, so there are two at least.
  rcases fragments with _ | ⟨first, _ | ⟨second, rest⟩⟩
  · cases hmem
  · exact absurd hlevels (Nat.not_succ_le_self 1)
  · exact hfragment.ne_joinLevels hmem hpath

/-! ## Every host -/

/-- A run of the search for `n 0` along the elements `n 0` to `n r`, with all that it asks. -/
structure Frugal {σ : Type} (h : Host σ) (t : Tree) (n : Nat → NodeId) (r : Nat) (options : Options)
    (state : σ) (talks : List (List Exchange)) (result : Except SynthesisError String)
    (final : σ) : Prop where
  -- The loop ends of itself, and the bounded search is this loop.
  ends : Ends h t (Ascent.start (n 0) options) state talks result final
  run : (synthesize h t (some (n 0)) options).run.run state = (result, final)
  transcript : (synthesize h.transcribing t (some (n 0)) options).run.run (state, []) =
    (result, final, talks.flatten)
  levels : talks.length ≤ r + 1
  -- What each level may ask, by what the levels before it were told.
  asked : ∀ i talk, talks[i]? = some talk →
    ∃ a outcome, Stands n options (talks.take i) a ∧ StepTalk t a talk outcome
  scans : ∀ talk ∈ talks, (Host.scans talk).length ≤ 2
  -- With one level the path is the fragment of that level, which may be asked for.
  path : ∀ path, result = .ok path → 2 ≤ talks.length → path ∉ Host.scans talks.flatten

/-- The search ends within as many levels as there are elements from the element up, and asks no
    more than `Frugal` says, whatever is answered. -/
theorem synthesize_frugal {t : Tree} (hacyclic : ∀ id, ¬ t.Above id id) {node : NodeId}
    (hnode : t.isElement node = true) (options : Options) {σ : Type} (h : Host σ) (state : σ) :
    ∃ n r, n 0 = node ∧ t.Line n r ∧
      ∃ talks result final, Frugal h t n r options state talks result final := by
  obtain ⟨n, r, rfl, hline, hsize⟩ := Tree.exists_line_of_acyclic hacyclic hnode
  obtain ⟨talks, result, final, hends, hlevels, hasked⟩ :=
    (stands_start n options).exists_ends h hline (Nat.zero_le r) (Nat.zero_add (r + 1)) state
  -- The line has no more elements than the tree has nodes, and these bound the climb.
  have hbound : talks.length ≤ t.size := Nat.le_trans hlevels hsize
  obtain ⟨hrun, htranscript⟩ := run_climb_of_ends hends hnode hbound
  refine ⟨n, r, rfl, hline, talks, result, final, ?_⟩
  exact
    { ends := hends
      run := by
        rw [synthesize_eq h hnode]
        exact hrun
      transcript := by
        rw [synthesize_eq h.transcribing hnode]
        exact htranscript []
      levels := hlevels
      asked := hasked
      scans := by
        intro talk htalk
        obtain ⟨i, hi⟩ := List.getElem?_of_mem htalk
        obtain ⟨a, outcome, -, hstep⟩ := hasked i talk hi
        exact hstep.length_scans_le
      path := by
        rintro path rfl hseveral
        exact hends.path_not_mem_scans hnode hseveral }

/-- A host that counts its questions and finds as many elements as it was asked questions before. -/
theorem synthesize_frugal_counting_host :
    let t := Tree.ofSketch .html (.element { tag := "ul" }
      [.element { tag := "li" } [.element { tag := "b" } []],
        .element { tag := "li" } [.element { tag := "b" } []]])
    let h : Host Nat :=
      { queryAll := fun _ count => (List.range count, count + 1)
        check := fun _ _ count => (.ok (count == 1), count + 1)
        warn := fun _ count => ((), count) }
    (∀ id, ¬ t.Above id id) ∧ t.isElement 5 = true ∧
      ∃ n r, n 0 = 5 ∧ t.Line n r ∧
        ∃ talks, Frugal h t n r {} 0 talks (.ok "ul:root > li:nth-child(2) > b") 4 := by
  intro t h
  have hacyclic : ∀ id, ¬ t.Above id id :=
    (Tree.isDocument_ofSketch .html rfl).whole.grown.linked.acyclic
  have hnode : t.isElement 5 = true := rfl
  obtain ⟨n, r, hstart, hline, talks, result, final, hfrugal⟩ :=
    synthesize_frugal hacyclic hnode {} h 0
  have hanswer : ((synthesize h t (some 5) {}).run.run 0).1 =
      .ok "ul:root > li:nth-child(2) > b" := by
    decide +kernel
  have hcount : ((synthesize h t (some 5) {}).run.run 0).2 = 4 := by
    decide +kernel
  -- The run ends with what was computed.
  have hrun := hfrugal.run
  rw [hstart] at hrun
  rw [hrun] at hanswer hcount
  cases hanswer
  cases hcount
  exact ⟨hacyclic, hnode, n, r, hstart, hline, talks, hfrugal⟩

end UniqueSelector.Synthesis
