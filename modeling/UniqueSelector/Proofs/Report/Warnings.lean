/-
  UniqueSelector.Proofs.Report.Warnings

  What the log of warnings keeps, over any sequence of warnings and clearings. It
  knows a warning by its text, and a text does not say where the component ends:
  a bracket and a space are written there, and both sides may hold them too. The
  log takes two warnings with one text for one warning, and shows the first only.

    * `WarningLog.Call`, `WarningLog.after` — the calls, and a sequence of them.
    * `WarningLog.Standing` — a warning was given, and the log not cleared since.
    * `Warning.Merges` — two warnings have one text; `Warning.text_eq_iff`.
    * `WarningLog.knows_after_iff_text` — the run lemma, by the calls from the last
      one back.
-/

import UniqueSelector.Warning
import Mathlib.Data.List.Induction

namespace UniqueSelector

/-! ## Warnings with one text -/

namespace Warning

/-- What stands between component and message in a text. -/
def mark : String := "] "

/-- The component of `w` goes on where that of `v` ends, and takes in what the message of `v`
    begins with. -/
def Shifts (v w : Warning) : Prop :=
  ∃ middle, w.component = v.component ++ mark ++ middle ∧ v.message = middle ++ mark ++ w.message

/-- One text is cut into component and message at two of its marks. -/
def Merges (v w : Warning) : Prop :=
  Shifts v w ∨ Shifts w v

theorem toList_text (w : Warning) :
    w.text.toList = '[' :: (w.component.toList ++ (']' :: ' ' :: w.message.toList)) := by
  show ("[" ++ w.component ++ "] " ++ w.message).toList = _
  simp

theorem Shifts.text_eq {v w : Warning} (h : Shifts v w) : v.text = w.text := by
  obtain ⟨middle, hcomponent, hmessage⟩ := h
  rw [← String.toList_inj, toList_text, toList_text, hcomponent, hmessage]
  simp [mark]

/-- The text of `w` has its mark no earlier than that of `v`. -/
theorem eq_or_shifts {v w : Warning} {more : List Char}
    (hcomponent : w.component.toList = v.component.toList ++ more)
    (hrest : ']' :: ' ' :: v.message.toList = more ++ (']' :: ' ' :: w.message.toList)) :
    v = w ∨ Shifts v w := by
  match more with
  | [] =>
      left
      rw [List.append_nil, String.toList_inj] at hcomponent
      simp only [List.nil_append, List.cons.injEq, true_and, String.toList_inj] at hrest
      cases v
      cases w
      cases hcomponent
      cases hrest
      rfl
  | [c] =>
      -- The two marks would overlap, and a mark does not begin as it ends.
      simp at hrest
  | c :: c' :: middle =>
      right
      simp only [List.cons_append, List.cons.injEq] at hrest
      obtain ⟨rfl, rfl, hmessage⟩ := hrest
      refine ⟨String.ofList middle, ?_, ?_⟩
      · rw [← String.toList_inj, hcomponent]
        simp [mark]
      · rw [← String.toList_inj, hmessage]
        simp [mark]

/-- Two warnings have one text only by the marks in them. -/
theorem text_eq_iff (v w : Warning) : v.text = w.text ↔ v = w ∨ Merges v w := by
  constructor
  · intro h
    rw [← String.toList_inj, toList_text, toList_text, List.cons_inj_right,
      List.append_eq_append_iff] at h
    rcases h with ⟨more, hcomponent, hrest⟩ | ⟨more, hcomponent, hrest⟩
    · exact (eq_or_shifts hcomponent hrest).imp_right Or.inl
    · exact (eq_or_shifts hcomponent hrest).imp Eq.symm Or.inr
  · rintro (rfl | h | h)
    · rfl
    · exact h.text_eq
    · exact h.text_eq.symm

end Warning

namespace WarningLog

/-! ## Sequences of calls -/

/-- A call to the log. -/
inductive Call where
  | warn (w : Warning)
  | clear
  deriving Repr, DecidableEq

/-- The log after a call. -/
def Call.run (log : WarningLog) : Call → WarningLog
  | .warn w => log.warn w
  | .clear => log.clear

/-- The log after some calls, made one after the other on a new one. -/
def after (calls : List Call) : WarningLog :=
  calls.foldl Call.run {}

/-- The warning was given, and the log was not cleared since. -/
def Standing (calls : List Call) (w : Warning) : Prop :=
  ∃ earlier later, calls = earlier ++ .warn w :: later ∧ .clear ∉ later

theorem after_concat (calls : List Call) (call : Call) :
    after (calls ++ [call]) = call.run (after calls) := by
  rw [after, List.foldl_append]
  rfl

theorem not_standing_nil (w : Warning) : ¬ Standing [] w := by
  rintro ⟨earlier, later, h, -⟩
  cases earlier <;> cases h

/-- What stands after one more call was given by it, or stood before and was not cleared by it. -/
theorem standing_concat_iff (calls : List Call) (call : Call) (w : Warning) :
    Standing (calls ++ [call]) w ↔ call = .warn w ∨ (call ≠ .clear ∧ Standing calls w) := by
  constructor
  · rintro ⟨earlier, later, h, hlater⟩
    rcases List.eq_nil_or_concat later with rfl | ⟨later, last, rfl⟩
    · obtain ⟨-, hlast⟩ := List.append_inj' h rfl
      exact Or.inl (List.singleton_inj.mp hlast)
    · rw [List.concat_eq_append, ← List.cons_append, ← List.append_assoc] at h
      obtain ⟨hcalls, hlast⟩ := List.append_inj' h rfl
      obtain rfl := List.singleton_inj.mp hlast
      simp only [List.concat_eq_append, List.mem_append, List.mem_singleton, not_or] at hlater
      exact Or.inr ⟨Ne.symm hlater.2, earlier, later, hcalls, hlater.1⟩
  · rintro (rfl | ⟨hcall, earlier, later, rfl, hlater⟩)
    · exact ⟨calls, [], rfl, by simp⟩
    · exact ⟨earlier, later ++ [call], by simp, by simp [hlater, Ne.symm hcall]⟩

/-! ## What the log knows and shows -/

/-- The run lemma; the step lemmas are `knows_warn` and `knows_clear`. -/
theorem knows_after_iff_text (calls : List Call) (w : Warning) :
    (after calls).knows w = true ↔ ∃ v, Standing calls v ∧ v.text = w.text := by
  induction calls using List.reverseRecOn with
  | nil => simp [after, knows, not_standing_nil]
  | append_singleton calls call ih =>
      rw [after_concat]
      cases call with
      | clear => simp [Call.run, knows_clear, standing_concat_iff]
      | warn u =>
          rw [Call.run, knows_warn, Bool.or_eq_true, ih, beq_iff_eq]
          simp [standing_concat_iff, or_and_right, exists_or, or_comm]

/-- The log knows the warnings given since it was cleared, and those that merge with one. -/
theorem knows_after_iff (calls : List Call) (w : Warning) :
    (after calls).knows w = true ↔
      Standing calls w ∨ ∃ v, Standing calls v ∧ v.Merges w := by
  rw [knows_after_iff_text]
  simp only [Warning.text_eq_iff, and_or_left, exists_or, exists_eq_right]

/-- The log knows and passes over the warnings given since it was cleared and those that merge
    with one of them, and shows all others. -/
theorem shows_after (calls : List Call) (w : Warning) :
    ((after calls).knows w = true ↔
      Standing calls w ∨ ∃ v, Standing calls v ∧ v.Merges w) ∧
    (((Standing calls w ∨ ∃ v, Standing calls v ∧ v.Merges w) ∧
        (after (calls ++ [.warn w])).shown = (after calls).shown) ∨
      (¬ (Standing calls w ∨ ∃ v, Standing calls v ∧ v.Merges w) ∧
        (after (calls ++ [.warn w])).shown = (after calls).shown ++ [w])) := by
  refine ⟨knows_after_iff calls w, ?_⟩
  rw [← knows_after_iff, after_concat, Call.run, warn]
  by_cases hknown : (after calls).knows w = true
  · rw [if_pos hknown]
    exact Or.inl ⟨hknown, rfl⟩
  · rw [if_neg hknown]
    exact Or.inr ⟨hknown, rfl⟩

/-- The log knows a warning that was never given, and does not show it. -/
theorem knows_unwarned :
    let given : Warning := ⟨"a", "b] c"⟩
    let other : Warning := ⟨"a] b", "c"⟩
    (after [.warn given]).knows other = true ∧ ¬ Standing [.warn given] other ∧
      (after [.warn given, .warn other]).shown = [given] := by
  intro given other
  refine ⟨by decide, ?_, by decide⟩
  rintro ⟨earlier, later, h, -⟩
  have hmem : Call.warn other ∈ [Call.warn given] := by
    rw [h]
    simp
  exact absurd hmem (by decide)

end WarningLog

end UniqueSelector
