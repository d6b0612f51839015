/-
  UniqueSelector.Proofs.Uri.Pieces

  Cutting a target loses nothing but the mark in front of the host and a `www.`
  behind it. Each cut is made where its delimiter first occurs, and so no other
  pieces can be the ones of the target.

    * `Opening` — the mark in front of a host, and how far the host reaches.
    * `splitAuthority_eq_iff` — the cut around the host.
    * `Parts.Divides` — how the pieces make up a target.
    * `Parts.ofString_divides` — the pieces of a target do, and no others.

  The single cuts come first, each with one lemma that says when it gives what.
  They are put together in the order in which they are made: fragment, query,
  authority, `www.`, port.
-/

import UniqueSelector.Uri.Parts

namespace UniqueSelector.Uri

open Text

/-! ## The authority -/

/-- A host runs up to the slash that begins the path; without such a slash all is path. -/
def Bounds (host path : List Char) : Prop :=
  '/' ∉ host ∧ ((∃ rest, path = '/' :: rest) ∨ host = [] ∧ '/' ∉ path)

/-- What opens the authority in front of a host: the first `://`, behind the protocol, or else a
    `//` at the very front. Without either there is no host. -/
inductive Opening : (protocol opening host path : List Char) → Prop
  | missing {path : List Char} (hnamed : ¬ "://".toList <:+: path)
      (hbare : ¬ "//".toList <+: path) : Opening [] [] [] path
  | bare {host path : List Char} (hnamed : ¬ "://".toList <:+: "//".toList ++ (host ++ path))
      (hend : Bounds host path) : Opening [] "//".toList host path
  | named {protocol host path : List Char} (hfirst : ¬ "://".toList <:+: protocol ++ ":/".toList)
      (hend : Bounds host path) : Opening protocol (protocol ++ "://".toList) host path

theorem Opening.slash_not_mem {protocol opening host path : List Char}
    (h : Opening protocol opening host path) : '/' ∉ host := by
  cases h with
  | missing => exact List.not_mem_nil
  | bare _ hend => exact hend.1
  | named _ hend => exact hend.1

theorem Opening.path_of_host {protocol opening host path : List Char}
    (h : Opening protocol opening host path) (hne : host ≠ []) : ∃ rest, path = '/' :: rest := by
  cases h with
  | missing => exact absurd rfl hne
  | bare _ hend => exact hend.2.resolve_right fun hnone => hne hnone.1
  | named _ hend => exact hend.2.resolve_right fun hnone => hne hnone.1

theorem splitProtocol_eq_none_iff {s : List Char} :
    splitProtocol s = none ↔ ¬ "://".toList <:+: s ∧ ¬ "//".toList <+: s := by
  rw [splitProtocol, ← cutAt?_eq_none_iff (by decide), ← isPrefixOf?_eq_none_iff]
  cases cutAt? "://".toList s with
  | none => simp
  | some cut => simp

theorem splitProtocol_eq_some_iff {s protocol after : List Char} :
    splitProtocol s = some (protocol, after) ↔
      (s = protocol ++ "://".toList ++ after ∧ ¬ "://".toList <:+: protocol ++ ":/".toList) ∨
        protocol = [] ∧ ¬ "://".toList <:+: s ∧ s = "//".toList ++ after := by
  constructor
  · intro h
    rw [splitProtocol] at h
    split at h
    · rename_i cut hcut
      cases h
      exact Or.inl ((cutAt?_eq_some_iff (by decide)).mp hcut)
    · rename_i hnone
      obtain ⟨rest, hrest, heq⟩ := Option.map_eq_some_iff.mp h
      cases heq
      exact Or.inr ⟨rfl, (cutAt?_eq_none_iff (by decide)).mp hnone, isPrefixOf?_eq_some_iff.mp hrest⟩
  · rintro (hcut | ⟨rfl, hnamed, hs⟩)
    · rw [splitProtocol, (cutAt?_eq_some_iff (by decide)).mpr hcut]
    · rw [splitProtocol, (cutAt?_eq_none_iff (by decide)).mpr hnamed, isPrefixOf?_eq_some_iff.mpr hs]
      rfl

/-- Up to the first slash, if there is one, what follows the mark is host. -/
theorem bounds_iff {name protocol after host path : List Char} :
    (if after.contains '/' then (name, after.takeWhile (· != '/'), after.dropWhile (· != '/'))
      else (name, [], after)) = (protocol, host, path) ↔
        name = protocol ∧ after = host ++ path ∧ Bounds host path := by
  by_cases hslash : '/' ∈ after
  · rw [if_pos (List.contains_iff_mem.mpr hslash), Prod.mk.injEq, Prod.mk.injEq, cutBefore_iff]
    refine and_congr_right fun _ => and_congr_right fun hafter => and_congr_right fun hhost => ?_
    -- The slash is not in the host, and so it is in the path.
    rw [hafter, List.mem_append, or_iff_right hhost] at hslash
    constructor
    · rintro (rfl | hpath)
      · cases hslash
      · exact Or.inl hpath
    · rintro (hpath | ⟨-, hnone⟩)
      · exact Or.inr hpath
      · exact absurd hslash hnone
  · rw [if_neg (by simpa using hslash), Prod.mk.injEq, Prod.mk.injEq]
    refine and_congr_right fun _ => ⟨?_, ?_⟩
    · rintro ⟨rfl, rfl⟩
      exact ⟨rfl, List.not_mem_nil, Or.inr ⟨rfl, hslash⟩⟩
    · rintro ⟨rfl, -, ⟨rest, rfl⟩ | ⟨rfl, -⟩⟩
      · exact absurd (List.mem_append_right host List.mem_cons_self) hslash
      · exact ⟨rfl, rfl⟩

/-- The cut around the host: its one result is what the mark in front and the slash behind it
    leave. -/
theorem splitAuthority_eq_iff {s protocol host path : List Char} :
    splitAuthority s = (protocol, host, path) ↔
      ∃ opening, Opening protocol opening host path ∧ s = opening ++ (host ++ path) := by
  constructor
  · intro h
    rw [splitAuthority] at h
    split at h
    · rename_i hnone
      cases h
      obtain ⟨hnamed, hbare⟩ := splitProtocol_eq_none_iff.mp hnone
      exact ⟨[], Opening.missing hnamed hbare, rfl⟩
    · rename_i name after hsplit
      obtain ⟨rfl, rfl, hend⟩ := bounds_iff.mp h
      rcases splitProtocol_eq_some_iff.mp hsplit with ⟨hs, hfirst⟩ | ⟨rfl, hnamed, hs⟩
      · exact ⟨_, Opening.named hfirst hend, hs⟩
      · exact ⟨_, Opening.bare (hs ▸ hnamed) hend, hs⟩
  · rintro ⟨opening, hopening, rfl⟩
    cases hopening with
    | missing hnamed hbare =>
      have hnone := splitProtocol_eq_none_iff.mpr ⟨hnamed, hbare⟩
      rw [List.nil_append, List.nil_append, splitAuthority, hnone]
    | bare hnamed hend =>
      rw [splitAuthority, splitProtocol_eq_some_iff.mpr (Or.inr ⟨rfl, hnamed, rfl⟩)]
      exact bounds_iff.mpr ⟨rfl, rfl, hend⟩
    | named hfirst hend =>
      rw [splitAuthority, splitProtocol_eq_some_iff.mpr (Or.inl ⟨rfl, hfirst⟩)]
      exact bounds_iff.mpr ⟨rfl, rfl, hend⟩

/-- A `www.` in front of the host is what dropping it takes away. -/
theorem dropWww_eq_iff {host rest : List Char} :
    dropWww host = rest ↔ ∃ www, host = www ++ rest ∧
      (www = "www.".toList ∨ www = [] ∧ ¬ "www.".toList <+: rest) := by
  rw [dropWww]
  cases h : "www.".toList.isPrefixOf? host with
  | none =>
    rw [isPrefixOf?_eq_none_iff] at h
    constructor
    · rintro rfl
      exact ⟨[], rfl, Or.inr ⟨rfl, h⟩⟩
    · rintro ⟨www, rfl, rfl | ⟨rfl, -⟩⟩
      · exact absurd (List.prefix_append _ rest) h
      · rfl
  | some after =>
    rw [isPrefixOf?_eq_some_iff] at h
    subst h
    constructor
    · rintro rfl
      exact ⟨_, rfl, Or.inl rfl⟩
    · rintro ⟨www, hhost, rfl | ⟨rfl, hno⟩⟩
      · exact List.append_cancel_left hhost
      · exact absurd ⟨after, hhost⟩ hno

/-! ## All cuts -/

namespace Parts

/-- The cuts in their order. -/
theorem ofList_eq_iff {s : List Char} {p : Parts} :
    ofList s = p ↔ ∃ front host,
      (s = front ++ p.query ++ p.fragment ∧ '#' ∉ front ++ p.query ∧ LedBy '#' p.fragment) ∧
        ('?' ∉ front ∧ LedBy '?' p.query) ∧
        splitAuthority front = (p.protocol, host, p.path) ∧
        (dropWww host = p.domain ++ p.port ∧ ':' ∉ p.domain ∧ LedBy ':' p.port) := by
  constructor
  · rintro rfl
    refine ⟨(s.takeWhile (· != '#')).takeWhile (· != '?'), _, ?_, ?_, rfl, ?_⟩
    · exact cutBefore_iff.mp ⟨List.takeWhile_append_dropWhile.symm, rfl⟩
    · exact (cutBefore_iff.mp ⟨rfl, rfl⟩).2
    · exact cutBefore_iff.mp ⟨rfl, rfl⟩
  · rintro ⟨front, host, hfragment, hquery, hsplit, hport⟩
    obtain ⟨hbefore, hfragment⟩ := cutBefore_iff.mpr hfragment
    obtain ⟨hfront, hquery⟩ := cutBefore_iff.mpr ⟨rfl, hquery⟩
    obtain ⟨hdomain, hport⟩ := cutBefore_iff.mpr hport
    rw [ofList, hbefore, hfragment, hfront, hquery, hsplit]
    dsimp only
    rw [hdomain, hport]

/-- How the pieces make up a target, with a mark in front of the host and a `www.` between them:
    what each piece begins with, and which delimiters it is free of. -/
structure Divides (p : Parts) (opening www uri : List Char) : Prop where
  whole : uri = opening ++ www ++ p.domain ++ p.port ++ p.path ++ p.query ++ p.fragment
  opens : Opening p.protocol opening (www ++ p.domain ++ p.port) p.path
  opening_free : '#' ∉ opening ∧ '?' ∉ opening
  dropped : www = "www.".toList ∨ www = [] ∧ ¬ "www.".toList <+: p.domain ++ p.port
  domain_free : '/' ∉ p.domain ∧ ':' ∉ p.domain ∧ '#' ∉ p.domain ∧ '?' ∉ p.domain
  port : LedBy ':' p.port
  port_free : '/' ∉ p.port ∧ '#' ∉ p.port ∧ '?' ∉ p.port
  path_free : '#' ∉ p.path ∧ '?' ∉ p.path
  path_of_host : p.domain ≠ [] ∨ p.port ≠ [] → ∃ rest, p.path = '/' :: rest
  query : LedBy '?' p.query
  query_free : '#' ∉ p.query
  fragment : LedBy '#' p.fragment

theorem exists_divides (s : List Char) : ∃ opening www, (ofList s).Divides opening www s := by
  obtain ⟨front, host, ⟨hs, hhash, hfragment⟩, ⟨hmark, hquery⟩, hsplit, hhost, hcolon, hport⟩ :=
    ofList_eq_iff.mp (rfl : ofList s = ofList s)
  obtain ⟨opening, hopening, rfl⟩ := splitAuthority_eq_iff.mp hsplit
  obtain ⟨www, rfl, hdropped⟩ := dropWww_eq_iff.mp hhost
  have hslash := hopening.slash_not_mem
  have hpath := hopening.path_of_host
  -- A delimiter that the front is free of is in none of its pieces.
  simp only [List.mem_append, not_or] at hhash hmark hslash
  obtain ⟨⟨hopening₁, ⟨-, hdomain₁, hport₁⟩, hpath₁⟩, hquery₁⟩ := hhash
  obtain ⟨hopening₂, ⟨-, hdomain₂, hport₂⟩, hpath₂⟩ := hmark
  rw [← List.append_assoc] at hopening
  exact ⟨opening, www, {
    whole := by simpa only [List.append_assoc] using hs
    opens := hopening
    opening_free := ⟨hopening₁, hopening₂⟩
    dropped := hdropped
    domain_free := ⟨hslash.2.1, hcolon, hdomain₁, hdomain₂⟩
    port := hport
    port_free := ⟨hslash.2.2, hport₁, hport₂⟩
    path_free := ⟨hpath₁, hpath₂⟩
    path_of_host := by
      intro hne
      refine hpath fun hnil => ?_
      simp only [List.append_eq_nil_iff] at hnil
      exact hne.elim (· hnil.2.1) (· hnil.2.2)
    query := hquery
    query_free := hquery₁
    fragment := hfragment }⟩

theorem Divides.front_free {p : Parts} {opening www s : List Char}
    (h : p.Divides opening www s) :
    let front := opening ++ (www ++ p.domain ++ p.port ++ p.path)
    '#' ∉ front ∧ '?' ∉ front := by
  have hwww : '#' ∉ www ∧ '?' ∉ www := by
    rcases h.dropped with rfl | ⟨rfl, -⟩ <;> decide
  simp [hwww, h.opening_free, h.domain_free, h.port_free, h.path_free]

theorem Divides.eq_ofList {p : Parts} {opening www s : List Char}
    (h : p.Divides opening www s) : ofList s = p := by
  obtain ⟨hhash, hmark⟩ := h.front_free
  refine ofList_eq_iff.mpr ⟨opening ++ (www ++ p.domain ++ p.port ++ p.path),
    www ++ p.domain ++ p.port, ⟨?_, ?_, h.fragment⟩, ⟨hmark, h.query⟩, ?_, ?_, h.domain_free.2.1,
    h.port⟩
  · simpa only [List.append_assoc] using h.whole
  · rw [List.mem_append, not_or]
    exact ⟨hhash, h.query_free⟩
  · exact splitAuthority_eq_iff.mpr ⟨opening, h.opens, rfl⟩
  · exact dropWww_eq_iff.mpr ⟨www, by rw [List.append_assoc], h.dropped⟩

/-- The pieces of a target make it up, and no others do. -/
theorem ofString_divides (uri : String) :
    (∃ opening www, (ofString uri).Divides opening www uri.toList) ∧
      ∀ p opening www, Divides p opening www uri.toList → ofString uri = p :=
  ⟨exists_divides uri.toList, fun _ _ _ h => h.eq_ofList⟩

/-- The pieces of a target that has them all. -/
theorem ofString_divides_full :
    let uri := "https://www.deque.com:8080/docs/?page=2#rules"
    let p : Parts :=
      { protocol := "https".toList, domain := "deque.com".toList, port := ":8080".toList
        path := "/docs/".toList, query := "?page=2".toList, fragment := "#rules".toList }
    p.Divides "https://".toList "www.".toList uri.toList ∧ ofString uri = p := by
  intro uri p
  have hdivides : p.Divides "https://".toList "www.".toList uri.toList :=
    { whole := by decide
      opens := Opening.named (by decide) ⟨by decide, Or.inl ⟨_, rfl⟩⟩
      opening_free := by decide
      dropped := Or.inl rfl
      domain_free := by decide
      port := Or.inr ⟨_, rfl⟩
      port_free := by decide
      path_free := by decide
      path_of_host := fun _ => ⟨_, rfl⟩
      query := Or.inr ⟨_, rfl⟩
      query_free := by decide
      fragment := Or.inr ⟨_, rfl⟩ }
  exact ⟨hdivides, (ofString_divides uri).2 p _ _ hdivides⟩

end Parts

end UniqueSelector.Uri
