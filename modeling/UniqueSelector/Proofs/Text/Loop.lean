/-
  UniqueSelector.Proofs.Text.Loop

  Loops that read a text. A round either ends the loop or gives an item and goes
  on in another state, with less of the text left. A loop whose rounds all take
  something has no more rounds than the text has characters, so it ends.

    * `Round`, `Loop` — one round, and the loop of such rounds.
    * `Loop.Runs` — the loop goes through these items and ends with this answer.
    * `Loop.Advances` — a round that does not end the loop takes a character.
    * `Loop.Advances.exists_runs` — such a loop ends, wherever it starts.
    * `Loop.Computes` — a function gives what such a loop collects.
    * `Loop.computes_of_follows` — it does if it agrees with every single round.
-/

namespace UniqueSelector.Text

/-- What one round of a loop comes to. -/
inductive Round (σ α β : Type) where
  | ends (answer : β)
  | goesOn (item : α) (next : σ)

/-- A loop over a text, with the part of it that is left in a state. -/
structure Loop (σ α β : Type) where
  left : σ → List Char
  round : σ → Round σ α β

namespace Loop

variable {σ α β γ : Type} {l : Loop σ α β}

/-- From a state the loop goes through `items` and ends with `answer`. -/
inductive Runs (l : Loop σ α β) : σ → List α → β → Prop
  | ends {s : σ} {answer : β} (h : l.round s = .ends answer) : Runs l s [] answer
  | goesOn {s next : σ} {item : α} {items : List α} {answer : β}
      (h : l.round s = .goesOn item next) (hnext : Runs l next items answer) :
      Runs l s (item :: items) answer

/-- Every round that does not end the loop takes one character at least. -/
def Advances (l : Loop σ α β) : Prop :=
  ∀ s item next, l.round s = .goesOn item next →
    ∃ front, front ≠ [] ∧ l.left s = front ++ l.left next

theorem Advances.length_lt (hl : l.Advances) {s next : σ} {item : α}
    (h : l.round s = .goesOn item next) : (l.left next).length < (l.left s).length := by
  obtain ⟨front, hne, hleft⟩ := hl s item next h
  have hpos := List.length_pos_iff.mpr hne
  rw [hleft, List.length_append]
  omega

/-- The loop ends, after no more rounds than there are characters. -/
theorem Advances.exists_runs (hl : l.Advances) (s : σ) :
    ∃ items answer, l.Runs s items answer ∧ items.length ≤ (l.left s).length := by
  -- By induction on the length of what is left, which every round shortens.
  cases hround : l.round s with
  | ends answer => exact ⟨[], answer, Runs.ends hround, Nat.zero_le _⟩
  | goesOn item next =>
      have hlt := hl.length_lt hround
      obtain ⟨items, answer, hruns, hlength⟩ := exists_runs hl next
      exact ⟨item :: items, answer, Runs.goesOn hround hruns, Nat.lt_of_le_of_lt hlength hlt⟩
termination_by (l.left s).length
decreasing_by exact hlt

/-- The loop comes to an end from every state, and what it collects on the way is the value
    of `f`. -/
structure Computes (l : Loop σ α β) (collect : List α → β → γ) (f : σ → γ) : Prop where
  advances : l.Advances
  ends : ∀ s, ∃ items answer, l.Runs s items answer ∧ items.length ≤ (l.left s).length
  value : ∀ s items answer, l.Runs s items answer → f s = collect items answer

/-- The value of `f` in `s` is what the round from there makes of it: what is collected without an
    item, or with one more than in the next state. A round that goes on takes a character. -/
inductive Follows (l : Loop σ α β) (collect : List α → β → γ) (f : σ → γ) (s : σ) :
    Round σ α β → Prop
  | ends {answer : β} (h : f s = collect [] answer) : Follows l collect f s (.ends answer)
  | goesOn {item : α} {next : σ} (htakes : ∃ front, front ≠ [] ∧ l.left s = front ++ l.left next)
      (h : ∀ items answer, f next = collect items answer → f s = collect (item :: items) answer) :
      Follows l collect f s (.goesOn item next)

variable {collect : List α → β → γ} {f : σ → γ}

theorem Follows.value (h : ∀ s, Follows l collect f s (l.round s)) {s : σ} {items : List α}
    {answer : β} (hruns : l.Runs s items answer) : f s = collect items answer := by
  induction hruns with
  | @ends s answer hround =>
      have hs := h s
      rw [hround] at hs
      cases hs with
      | ends h => exact h
  | @goesOn s next item items answer hround _ ih =>
      have hs := h s
      rw [hround] at hs
      cases hs with
      | goesOn _ h => exact h items answer ih

/-- A function that follows every round is what the loop computes. -/
theorem computes_of_follows (h : ∀ s, Follows l collect f s (l.round s)) :
    l.Computes collect f := by
  have hadvances : l.Advances := by
    intro s item next hround
    have hs := h s
    rw [hround] at hs
    cases hs with
    | goesOn htakes _ => exact htakes
  exact ⟨hadvances, hadvances.exists_runs, fun s items answer => Follows.value h⟩

end Loop

end UniqueSelector.Text
