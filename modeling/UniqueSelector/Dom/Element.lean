/-
  UniqueSelector.Dom.Element

  Elements: a tag name and attributes, and what is read off the attributes. The
  kind of markup decides how tag names compare: in HTML up to the case of ASCII
  letters, in XHTML exactly.
-/

import UniqueSelector.Text.Ascii

namespace UniqueSelector

open Text

/-- The kind of markup a document is written in. -/
inductive Markup where
  | html
  | xhtml
  deriving Repr, DecidableEq

/-! ## Attributes -/

/-- Attribute names and values; the first entry of a name counts. -/
structure Attributes where
  entries : List (String × String) := []
  deriving Repr, DecidableEq

namespace Attributes

/-- The value of an attribute. -/
def get? (as : Attributes) (name : String) : Option String :=
  as.entries.lookup name

/-- The attribute is there, whatever its value. -/
def has (as : Attributes) (name : String) : Bool :=
  (as.get? name).isSome

/-- The entries with a value put in the place of a name, or at the end. -/
def setEntry (name value : String) : List (String × String) → List (String × String)
  | [] => [(name, value)]
  | entry :: rest =>
    if name == entry.1 then (name, value) :: rest else entry :: setEntry name value rest

/-- `as` with a value for a name. -/
def set (as : Attributes) (name value : String) : Attributes :=
  ⟨setEntry name value as.entries⟩

/-- `as` without a name. -/
def erase (as : Attributes) (name : String) : Attributes :=
  ⟨as.entries.filter (name != ·.1)⟩

/-- The attributes in a list of pairs; of two with one name the later counts. -/
def ofList (pairs : List (String × String)) : Attributes :=
  pairs.foldl (fun as (name, value) => as.set name value) {}

@[simp] theorem get?_empty (name : String) : ({} : Attributes).get? name = none := rfl

theorem get?_set (as : Attributes) (name value other : String) :
    (as.set name value).get? other = if other = name then some value else as.get? other := by
  obtain ⟨entries⟩ := as
  simp only [get?, set]
  induction entries with
  | nil => simp only [setEntry, List.lookup_cons, List.lookup_nil]; split <;> simp_all
  | cons entry rest ih =>
    obtain ⟨n, v⟩ := entry
    by_cases hn : name = n
    · subst hn
      by_cases ho : other = name
      · simp [setEntry, ho]
      · have : (other == name) = false := by simpa using ho
        simp [setEntry, List.lookup_cons, ho, this]
    · have hne : (name == n) = false := by simpa using hn
      simp only [setEntry, hne, Bool.false_eq_true, if_false, List.lookup_cons]
      by_cases ho : other = n
      · subst ho
        have : ¬ other = name := fun h => hn h.symm
        simp [this]
      · have : (other == n) = false := by simpa using ho
        simp only [this, ih]

theorem get?_erase (as : Attributes) (name other : String) :
    (as.erase name).get? other = if other = name then none else as.get? other := by
  obtain ⟨entries⟩ := as
  simp only [get?, erase]
  induction entries with
  | nil => simp
  | cons entry rest ih =>
    obtain ⟨n, v⟩ := entry
    by_cases hn : name = n
    · subst hn
      by_cases ho : other = name
      · simp_all
      · have : (other == name) = false := by simpa using ho
        simp only [ho, if_false] at ih ⊢
        simp [List.lookup_cons, this, ih]
    · have hne : (name != n) = true := by simpa using hn
      by_cases ho : other = n
      · subst ho
        have : ¬ other = name := fun h => hn h.symm
        simp [List.filter, hne, this]
      · have : (other == n) = false := by simpa using ho
        simp only [List.filter, hne, List.lookup_cons, this, ih]

end Attributes

/-! ## Elements -/

/-- A tag name as written, and the attributes. -/
structure Element where
  tag : String
  attributes : Attributes := {}
  deriving Repr, DecidableEq

namespace Element

/-- The value of an attribute. -/
def attribute? (e : Element) (name : String) : Option String :=
  e.attributes.get? name

/-- The attribute is there, whatever its value. -/
def hasAttribute (e : Element) (name : String) : Bool :=
  e.attributes.has name

/-- The value of the id attribute. -/
def id? (e : Element) : Option String :=
  e.attribute? "id"

/-- The words of the class attribute, in order, each once. -/
def classes (e : Element) : List String :=
  match e.attribute? "class" with
  | none => []
  | some value => (words value).eraseDups

/-- `name` is a word of the class attribute. -/
def hasClass (e : Element) (name : String) : Bool :=
  match e.attribute? "class" with
  | none => false
  | some value => (words value).contains name

/-- The tag name as a selector names it. -/
def selectorName (e : Element) : Markup → String
  | .html => lower e.tag
  | .xhtml => e.tag

/-- The tag name is the one asked for. -/
def isNamed (e : Element) (name : String) : Markup → Bool
  | .html => sameLetters e.tag name
  | .xhtml => e.tag == name

theorem mem_classes_iff (e : Element) (name : String) :
    name ∈ e.classes ↔ e.hasClass name = true := by
  unfold classes hasClass
  split <;> simp [List.mem_eraseDups]

end Element

end UniqueSelector
