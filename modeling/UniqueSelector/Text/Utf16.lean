/-
  UniqueSelector.Text.Utf16

  The length of a text in UTF-16 code units: two for a character beyond the
  first 65536, one for every other. Length limits on link targets count so.
-/

namespace UniqueSelector.Text

/-- Code units of one character. -/
def charUnits (c : Char) : Nat :=
  if c.toNat < 0x10000 then 1 else 2

/-- Code units of a list of characters. -/
def listUnits (s : List Char) : Nat :=
  s.foldr (fun c n => charUnits c + n) 0

/-- Code units of a text. -/
def codeUnits (s : String) : Nat :=
  listUnits s.toList

theorem charUnits_pos (c : Char) : 0 < charUnits c := by
  unfold charUnits; split <;> omega

@[simp] theorem listUnits_nil : listUnits [] = 0 := rfl

@[simp] theorem listUnits_cons (c : Char) (s : List Char) :
    listUnits (c :: s) = charUnits c + listUnits s := rfl

@[simp] theorem listUnits_append (s t : List Char) :
    listUnits (s ++ t) = listUnits s + listUnits t := by
  induction s with
  | nil => simp
  | cons c cs ih => rw [List.cons_append, listUnits_cons, ih, listUnits_cons, Nat.add_assoc]

theorem listUnits_eq_zero_iff (s : List Char) : listUnits s = 0 ↔ s = [] := by
  cases s with
  | nil => simp
  | cons c cs => simpa using fun h => absurd h (Nat.ne_of_gt (charUnits_pos c))

theorem listUnits_pos {s : List Char} (h : s ≠ []) : 0 < listUnits s :=
  Nat.pos_of_ne_zero fun hzero => h ((listUnits_eq_zero_iff s).mp hzero)

end UniqueSelector.Text
