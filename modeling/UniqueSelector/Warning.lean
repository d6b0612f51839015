/-
  UniqueSelector.Warning

  Warnings about what was passed over without an error. A text is shown once
  until the log is cleared. Two warnings with the same text are the same to the
  log, however the text falls into component and message.
-/

namespace UniqueSelector

/-- A message and the part of the program that it comes from. -/
structure Warning where
  component : String
  message : String
  deriving Repr, DecidableEq

namespace Warning

/-- The text by which the log knows a warning. -/
def text (w : Warning) : String :=
  s!"[{w.component}] {w.message}"

/-- The line that shows a warning, in yellow. -/
def line (w : Warning) : String :=
  s!"\x1b[33m[pinpoint {w.component}] ⚠ {w.message}\x1b[0m"

end Warning

/-- The texts known since the log was cleared, and every warning shown so far. -/
structure WarningLog where
  known : List String := []
  shown : List Warning := []
  deriving Repr, DecidableEq

namespace WarningLog

/-- The warning, or one with the same text, was given since the log was cleared. -/
def knows (log : WarningLog) (w : Warning) : Bool :=
  log.known.contains w.text

/-- The log after a warning, which is shown if its text is new. -/
def warn (log : WarningLog) (w : Warning) : WarningLog :=
  if log.knows w then log
  else { known := w.text :: log.known, shown := log.shown ++ [w] }

/-- The log with every text forgotten. -/
def clear (log : WarningLog) : WarningLog :=
  { log with known := [] }

theorem knows_warn (log : WarningLog) (w v : Warning) :
    (log.warn w).knows v = (log.knows v || w.text == v.text) := by
  unfold warn
  split
  · rename_i h
    by_cases hv : w.text = v.text
    · simpa [knows, hv] using h
    · simp [hv]
  · by_cases hv : w.text = v.text
    · simp [knows, hv]
    · have : ¬ v.text = w.text := fun h => hv h.symm
      simp [knows, hv, this]

theorem knows_clear (log : WarningLog) (w : Warning) : log.clear.knows w = false := by
  simp [clear, knows]

end WarningLog

end UniqueSelector
