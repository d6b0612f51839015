/-
  UniqueSelector.Proofs.Uri.Suffix

  What the friendly suffix of a target is. It is one of five candidates, each
  made of pieces at the end of the target, and a candidate is taken where it is
  short enough.

    * `Candidate` — the candidates, with what is checked of each.
    * `friendlySuffix_genuine` — the suffix is short, and an end of the target
      where no port stands in between.
    * `Grows`, `Grows.ite` — what a greater limit does to one choice.
    * `friendlySuffix_grows` — a greater limit keeps the suffix, or more of it.
-/

import UniqueSelector.Proofs.Uri.PathEnd
import UniqueSelector.Proofs.Uri.Pieces
import UniqueSelector.Uri.Friendly

namespace UniqueSelector.Uri

open Text

/-! ## The candidates -/

/-- Where a friendly suffix comes from, and what is checked of it. -/
inductive Candidate (maxLength : Nat) (p : Parts) : List Char → Prop
  | pathEndAndFragment (hfragment : p.fragment ≠ []) (hpath : p.pathEnd ≠ [])
      (hmax : listUnits p.pathEnd + listUnits p.fragment ≤ maxLength) :
      Candidate maxLength p (p.pathEnd ++ p.fragment)
  | fragment (hlong : 2 < listUnits p.fragment) (hmax : listUnits p.fragment ≤ maxLength) :
      Candidate maxLength p p.fragment
  | domain (hfragment : p.fragment = []) (hdomain : p.domain ≠ [])
      (hmax : listUnits p.domain < maxLength) (hpath : listUnits p.path ≤ 1) :
      Candidate maxLength p (p.domain ++ p.path)
  | domainAndSegment (hfragment : p.fragment = []) (hdomain : p.domain ≠ [])
      (hmax : listUnits p.domain + listUnits p.path ≤ maxLength) :
      Candidate maxLength p (p.domain ++ p.path)
  | pathEnd (hfragment : p.fragment = []) (hstem : hasStem p.pathEnd = true)
      (hmax : listUnits p.pathEnd ≤ maxLength) : Candidate maxLength p p.pathEnd

theorem candidate_of_fragmentSuffix {maxLength : Nat} {p : Parts} {s : List Char}
    (hfragment : p.fragment ≠ []) (h : fragmentSuffix maxLength p.pathEnd p.fragment = some s) :
    Candidate maxLength p s := by
  rw [fragmentSuffix] at h
  split at h
  · rename_i hpath
    cases h
    simp only [Bool.and_eq_true, Bool.not_eq_true', List.isEmpty_eq_false_iff,
      decide_eq_true_eq] at hpath
    exact Candidate.pathEndAndFragment hfragment hpath.1 hpath.2
  · split at h
    · rename_i hlong
      cases h
      simp only [Bool.and_eq_true, decide_eq_true_eq] at hlong
      exact Candidate.fragment hlong.1.2 hlong.2
    · cases h

theorem candidate_of_plainSuffix {options : FriendlyOptions} {p : Parts} {s : List Char}
    (hfragment : p.fragment = []) (h : plainSuffix options p = some s) :
    Candidate options.maxLength p s := by
  rw [plainSuffix] at h
  split at h
  · rename_i hdomain
    cases h
    simp only [Bool.and_eq_true, Bool.not_eq_true', List.isEmpty_eq_false_iff,
      decide_eq_true_eq] at hdomain
    exact Candidate.domain hfragment hdomain.1.1 hdomain.1.2 hdomain.2
  · split at h
    · rename_i hsegment
      cases h
      simp only [Bool.and_eq_true, Bool.not_eq_true', List.isEmpty_eq_false_iff,
        decide_eq_true_eq] at hsegment
      exact Candidate.domainAndSegment hfragment hsegment.1.1.2 hsegment.2
    · split at h
      · rename_i hstem
        cases h
        simp only [Bool.and_eq_true, decide_eq_true_eq] at hstem
        exact Candidate.pathEnd hfragment hstem.1.1.1 hstem.1.1.2
      · cases h

theorem candidate_of_friendlyChars {options : FriendlyOptions} {uri s : List Char}
    (h : friendlyChars options uri = some s) :
    '?' ∉ uri ∧ Candidate options.maxLength (Parts.ofList uri) s := by
  rw [friendlyChars] at h
  split at h
  · cases h
  · rename_i hfriendly
    simp only [isUnfriendly, Bool.or_eq_true, not_or, List.contains_iff_mem] at hfriendly
    refine ⟨hfriendly.2, ?_⟩
    dsimp only at h
    split at h
    · rename_i hfragment
      exact candidate_of_plainSuffix (List.isEmpty_iff.mp hfragment) h
    · rename_i hfragment
      exact candidate_of_fragmentSuffix (by simpa using hfragment) h

theorem exists_candidate {options : FriendlyOptions} {uri s : String}
    (h : friendlySuffix options uri = some s) :
    '?' ∉ uri.toList ∧ Candidate options.maxLength (Parts.ofString uri) s.toList := by
  rw [friendlySuffix, Option.map_eq_some_iff] at h
  obtain ⟨s, hs, rfl⟩ := h
  rw [String.toList_ofList]
  exact candidate_of_friendlyChars hs

/-! ## Length and place -/

theorem two_lt_of_hasStem {pathEnd : List Char} (h : hasStem pathEnd = true) :
    2 < listUnits pathEnd := by
  rw [hasStem] at h
  split at h
  · rename_i stem hstem
    obtain ⟨extension, rfl⟩ := exists_of_beforeLast? hstem
    have hstem : 1 < listUnits stem := by simpa using h
    have hdot := charUnits_pos '.'
    rw [listUnits_append, listUnits_cons]
    omega
  · simpa using h

/-- Only a bare domain is checked against the limit without what follows it, and there one slash
    follows. -/
theorem Candidate.length {maxLength : Nat} {uri s : List Char}
    (h : Candidate maxLength (Parts.ofList uri) s) :
    2 ≤ listUnits s ∧ listUnits s ≤ maxLength := by
  obtain ⟨opening, www, hdivides⟩ := Parts.exists_divides uri
  generalize Parts.ofList uri = p at h hdivides
  -- Behind a domain stands a slash, so the two are two units long at least.
  have hslash (hdomain : p.domain ≠ []) : 0 < listUnits p.domain ∧ 0 < listUnits p.path := by
    obtain ⟨rest, hrest⟩ := hdivides.path_of_host (Or.inl hdomain)
    exact ⟨listUnits_pos hdomain, listUnits_pos (by simp [hrest])⟩
  cases h with
  | pathEndAndFragment hfragment hpathEnd hmax =>
    have hleft := listUnits_pos hpathEnd
    have hright := listUnits_pos hfragment
    rw [listUnits_append]
    omega
  | fragment hlong hmax => exact ⟨Nat.le_of_lt hlong, hmax⟩
  | domain _ hdomain hmax hshort =>
    have hpos := hslash hdomain
    rw [listUnits_append]
    omega
  | domainAndSegment _ hdomain hmax =>
    have hpos := hslash hdomain
    rw [listUnits_append]
    omega
  | pathEnd _ hstem hmax => exact ⟨Nat.le_of_lt (two_lt_of_hasStem hstem), hmax⟩

/-- A friendly suffix is never empty. -/
theorem friendlySuffix_ne_empty {options : FriendlyOptions} {uri suffix : String}
    (h : friendlySuffix options uri = some suffix) : suffix ≠ "" := by
  rintro rfl
  have hlength := (exists_candidate h).2.length.1
  exact absurd hlength (by decide)

theorem Candidate.place {maxLength : Nat} {p : Parts} {s : List Char}
    (h : Candidate maxLength p s) :
    s <:+ p.path ++ p.fragment ∨ p.fragment = [] ∧ s = p.domain ++ p.path := by
  cases h with
  | pathEndAndFragment => exact Or.inl (List.suffix_append_self_iff.mpr p.pathEnd_suffix)
  | fragment => exact Or.inl (List.suffix_append _ _)
  | domain hfragment => exact Or.inr ⟨hfragment, rfl⟩
  | domainAndSegment hfragment => exact Or.inr ⟨hfragment, rfl⟩
  | pathEnd hfragment =>
    rw [hfragment, List.append_nil]
    exact Or.inl p.pathEnd_suffix

/-- Where no query is, the target ends with all pieces from the domain on. -/
theorem Parts.Divides.exists_front {p : Parts} {opening www uri : List Char}
    (h : p.Divides opening www uri) (hquery : '?' ∉ uri) :
    uri = opening ++ www ++ (p.domain ++ (p.port ++ (p.path ++ p.fragment))) := by
  have hwhole := h.whole
  rcases h.query with hnone | ⟨rest, hrest⟩
  · rw [hnone] at hwhole
    simpa only [List.append_assoc, List.nil_append] using hwhole
  · rw [hwhole, hrest] at hquery
    simp at hquery

theorem Candidate.genuine {maxLength : Nat} {uri s : List Char}
    (h : Candidate maxLength (Parts.ofList uri) s) (hquery : '?' ∉ uri) :
    (s <:+ uri ∨ (Parts.ofList uri).port ≠ [] ∧
      s = (Parts.ofList uri).domain ++ (Parts.ofList uri).path) ∧ '?' ∉ s := by
  obtain ⟨opening, www, hdivides⟩ := Parts.exists_divides uri
  have hwhole := hdivides.exists_front hquery
  generalize Parts.ofList uri = p at h hdivides hwhole ⊢
  have hend : p.port ++ (p.path ++ p.fragment) <:+ uri := by
    rw [hwhole]
    exact (List.suffix_append p.domain _).trans (List.suffix_append _ _)
  rcases h.place with hsuffix | ⟨hfragment, rfl⟩
  · have hs : s <:+ uri := hsuffix.trans ((List.suffix_append p.port _).trans hend)
    exact ⟨Or.inl hs, fun hmem => hquery (hs.subset hmem)⟩
  · refine ⟨?_, ?_⟩
    · by_cases hport : p.port = []
      · rw [hport, hfragment, List.append_nil, List.nil_append] at hwhole
        exact Or.inl ⟨_, hwhole.symm⟩
      · exact Or.inr ⟨hport, rfl⟩
    · rw [List.mem_append, not_or]
      exact ⟨hdivides.domain_free.2.2.2, hdivides.path_free.2⟩

/-- Where no port is cut out of it, the target ends with its friendly suffix. -/
theorem suffix_of_port_eq_nil {options : FriendlyOptions} {uri s : String}
    (hport : (Parts.ofString uri).port = []) (h : friendlySuffix options uri = some s) :
    s.toList <:+ uri.toList := by
  obtain ⟨hquery, hcandidate⟩ := exists_candidate h
  exact (hcandidate.genuine hquery).1.resolve_right fun hcut => hcut.1 hport

/-- The friendly suffix is short and has no query, and the target ends with it, unless a port
    stands between the domain and the path that it is made of. -/
theorem friendlySuffix_genuine {options : FriendlyOptions} {uri s : String}
    (h : friendlySuffix options uri = some s) :
    2 ≤ codeUnits s ∧ codeUnits s ≤ options.maxLength ∧ '?' ∉ s.toList ∧
      ((Parts.ofString uri).port = [] → s.toList <:+ uri.toList) ∧
      ((Parts.ofString uri).port ≠ [] → s.toList <:+ uri.toList ∨
        s.toList = (Parts.ofString uri).domain ++ (Parts.ofString uri).path) := by
  obtain ⟨hquery, hcandidate⟩ := exists_candidate h
  obtain ⟨hmin, hmax⟩ := hcandidate.length
  obtain ⟨hplace, hfree⟩ := hcandidate.genuine hquery
  exact ⟨hmin, hmax, hfree, fun hport => suffix_of_port_eq_nil hport h,
    fun _ => hplace.imp_right And.right⟩

/-- The port is cut out of the suffix of a target with one, and the target does not end so. -/
theorem friendlySuffix_genuine_port :
    let uri := "http://www.deque.com:8080/"
    friendlySuffix {} uri = some "deque.com/" ∧ codeUnits "deque.com/" ≤ 25 ∧
      (Parts.ofString uri).port = ":8080".toList ∧
      ("deque.com/".toList <:+ uri.toList ∨
        "deque.com/".toList = (Parts.ofString uri).domain ++ (Parts.ofString uri).path) := by
  intro uri
  have h : friendlySuffix {} uri = some "deque.com/" := by decide
  have hport : (Parts.ofString uri).port = ":8080".toList := by decide
  have hgenuine := friendlySuffix_genuine h
  exact ⟨h, hgenuine.2.1, hport, hgenuine.2.2.2.2 (by rw [hport]; decide)⟩

/-! ## Greater limits -/

/-- An answer stays, or gets longer at its front. -/
def Grows (before after : Option (List Char)) : Prop :=
  ∀ s, before = some s → ∃ s', after = some s' ∧ s <:+ s'

/-- All answers are ends of `whole`. -/
def EndOf (whole : List Char) (answer : Option (List Char)) : Prop :=
  ∀ s, answer = some s → s <:+ whole

theorem endOf_none (whole : List Char) : EndOf whole none :=
  fun _ h => nomatch h

theorem EndOf.ite {whole text : List Char} {others : Option (List Char)} {c : Prop} [Decidable c]
    (htext : text <:+ whole) (hothers : EndOf whole others) :
    EndOf whole (if c then some text else others) := by
  intro s h
  split at h
  · cases h
    exact htext
  · exact hothers s h

theorem grows_none (after : Option (List Char)) : Grows none after :=
  fun _ h => nomatch h

/-- The rule for one choice: what was chosen before is chosen again, and where the choice is made
    only now, all that could be the answer before are ends of it. -/
theorem Grows.ite {text : List Char} {others others' : Option (List Char)} {c c' : Prop}
    [Decidable c] [Decidable c'] (hc : c → c') (hends : EndOf text others)
    (hothers : Grows others others') :
    Grows (if c then some text else others) (if c' then some text else others') := by
  intro s h
  by_cases hnow : c'
  · rw [if_pos hnow]
    exact ⟨text, rfl, EndOf.ite List.suffix_rfl hends s h⟩
  · rw [if_neg fun hbefore => hnow (hc hbefore)] at h
    rw [if_neg hnow]
    exact hothers s h

theorem fragmentSuffix_grows {m m' : Nat} (hm : m ≤ m') (pathEnd fragment : List Char) :
    Grows (fragmentSuffix m pathEnd fragment) (fragmentSuffix m' pathEnd fragment) := by
  -- The fragment alone is an end of the path end and the fragment.
  have hends {c : Prop} [Decidable c] :
      EndOf (pathEnd ++ fragment) (if c then some fragment else none) :=
    EndOf.ite (List.suffix_append pathEnd fragment) (endOf_none _)
  rw [fragmentSuffix, fragmentSuffix]
  refine Grows.ite ?both hends (Grows.ite ?alone (endOf_none _) (grows_none _))
  all_goals simp only [Bool.and_eq_true, decide_eq_true_eq]
  case both => exact fun ⟨hpath, hmax⟩ => ⟨hpath, Nat.le_trans hmax hm⟩
  case alone => exact fun ⟨hshape, hmax⟩ => ⟨hshape, Nat.le_trans hmax hm⟩

theorem plainSuffix_grows {m m' : Nat} (hm : m ≤ m') (currentDomain : Option String) (p : Parts) :
    Grows (plainSuffix ⟨currentDomain, m⟩ p) (plainSuffix ⟨currentDomain, m'⟩ p) := by
  -- Every later choice is an end of domain and path.
  have hpathEnd : p.pathEnd <:+ p.domain ++ p.path :=
    p.pathEnd_suffix.trans (List.suffix_append p.domain p.path)
  have hends {c : Prop} [Decidable c] :
      EndOf (p.domain ++ p.path) (if c then some p.pathEnd else none) :=
    EndOf.ite hpathEnd (endOf_none _)
  rw [plainSuffix, plainSuffix]
  refine Grows.ite ?domain (EndOf.ite List.suffix_rfl hends) (Grows.ite ?segment hends
    (Grows.ite ?pathEnd (endOf_none _) (grows_none _)))
  all_goals simp only [Bool.and_eq_true, decide_eq_true_eq]
  case domain => exact fun ⟨⟨hdomain, hmax⟩, hpath⟩ => ⟨⟨hdomain, Nat.lt_of_lt_of_le hmax hm⟩, hpath⟩
  case segment => exact fun ⟨hshape, hmax⟩ => ⟨hshape, Nat.le_trans hmax hm⟩
  case pathEnd =>
    exact fun ⟨⟨⟨hstem, hmax⟩, hindex⟩, hdigits⟩ =>
      ⟨⟨⟨hstem, Nat.le_trans hmax hm⟩, hindex⟩, hdigits⟩

theorem friendlyChars_grows {m m' : Nat} (hm : m ≤ m') (currentDomain : Option String)
    (uri : List Char) :
    Grows (friendlyChars ⟨currentDomain, m⟩ uri) (friendlyChars ⟨currentDomain, m'⟩ uri) := by
  rw [friendlyChars, friendlyChars]
  -- Neither what rules a target out nor its fragment depends on the limit.
  by_cases hfriendly : isUnfriendly uri = true
  · rw [if_pos hfriendly]
    exact grows_none _
  · rw [if_neg hfriendly, if_neg hfriendly]
    dsimp only
    by_cases hfragment : (Parts.ofList uri).fragment.isEmpty = true
    · rw [if_pos hfragment, if_pos hfragment]
      exact plainSuffix_grows hm currentDomain _
    · rw [if_neg hfragment, if_neg hfragment]
      exact fragmentSuffix_grows hm _ _

/-- With a greater limit the friendly suffix stays, or more of the target is taken. -/
theorem friendlySuffix_grows {currentDomain : Option String} {m m' : Nat} (hm : m ≤ m')
    {uri s : String} (h : friendlySuffix ⟨currentDomain, m⟩ uri = some s) :
    ∃ s', friendlySuffix ⟨currentDomain, m'⟩ uri = some s' ∧ s.toList <:+ s'.toList := by
  rw [friendlySuffix, Option.map_eq_some_iff] at h
  obtain ⟨s, hs, rfl⟩ := h
  obtain ⟨s', hs', hsuffix⟩ := friendlyChars_grows hm currentDomain uri.toList s hs
  refine ⟨String.ofList s', ?_, ?_⟩
  · rw [friendlySuffix, hs']
    rfl
  · rwa [String.toList_ofList, String.toList_ofList]

/-- With five units more the domain is taken too. -/
theorem friendlySuffix_grows_domain :
    let uri := "https://deque.com/about"
    5 ≤ 15 ∧ friendlySuffix ⟨"example.org", 5⟩ uri = some "about" ∧
      ∃ s', friendlySuffix ⟨"example.org", 15⟩ uri = some s' ∧
        "about".toList <:+ s'.toList := by
  intro uri
  have h : friendlySuffix ⟨"example.org", 5⟩ uri = some "about" := by decide
  exact ⟨by decide, h, friendlySuffix_grows (by decide) h⟩

end UniqueSelector.Uri
