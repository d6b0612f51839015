/-
  UniqueSelector.Text.Search

  Where one text stands in another: at its start, at its end, or anywhere.
  All three compare code points, and the empty text stands everywhere.
-/

namespace UniqueSelector.Text

/-- `needle` occurs in the given characters as a block. -/
def occursIn (needle : List Char) : List Char → Bool
  | [] => needle.isEmpty
  | c :: cs => needle.isPrefixOf (c :: cs) || occursIn needle cs

/-- `s` holds `needle` as a block. -/
def contains (s needle : String) : Bool :=
  occursIn needle.toList s.toList

/-- `s` begins with `start`. -/
def beginsWith (s start : String) : Bool :=
  start.toList.isPrefixOf s.toList

/-- `s` ends with `tail`. -/
def endsWith (s tail : String) : Bool :=
  tail.toList.isSuffixOf s.toList

/-! ## The tests as relations on lists -/

theorem occursIn_iff (needle : List Char) (s : List Char) :
    occursIn needle s = true ↔ needle <:+: s := by
  induction s with
  | nil => simp [occursIn]
  | cons c cs ih => simp [occursIn, ih, List.infix_cons_iff]

theorem contains_iff (s needle : String) :
    contains s needle = true ↔ needle.toList <:+: s.toList :=
  occursIn_iff _ _

theorem endsWith_iff (s tail : String) :
    endsWith s tail = true ↔ tail.toList <:+ s.toList :=
  List.isSuffixOf_iff_suffix

end UniqueSelector.Text
