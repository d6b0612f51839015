/-
  UniqueSelector.Uri.Parts

  The pieces of a link target. Nothing is resolved or normalised: the text is
  cut at its delimiters, one after the other, in this order.

  1. the fragment, from the first `#`;
  2. the query, from the first `?` before it;
  3. the authority, after `://` or a `//` in front, up to the next `/`. Without
     such a `/` there is no authority, and the rest is all path;
  4. a `www.` in front of the host, which is dropped;
  5. the port, from the first `:` of the host.
-/

import UniqueSelector.Text.Cut
import UniqueSelector.Text.Utf16

namespace UniqueSelector.Uri

open Text

/-- The pieces of a link target. Fragment, query and port keep the delimiter in front. -/
structure Parts where
  protocol : List Char
  domain : List Char
  port : List Char
  path : List Char
  query : List Char
  fragment : List Char
  deriving Repr, DecidableEq

/-- Protocol and what follows it, where an authority may begin. -/
def splitProtocol (s : List Char) : Option (List Char × List Char) :=
  match cutAt? "://".toList s with
  | some cut => some cut
  | none => ("//".toList.isPrefixOf? s).map fun after => ([], after)

/-- Protocol, host and path of a text without query and fragment. -/
def splitAuthority (s : List Char) : List Char × List Char × List Char :=
  match splitProtocol s with
  | none => ([], [], s)
  | some (protocol, after) =>
    if after.contains '/' then
      (protocol, after.takeWhile (· != '/'), after.dropWhile (· != '/'))
    else (protocol, [], after)

/-- A host without the `www.` in front. -/
def dropWww (host : List Char) : List Char :=
  ("www.".toList.isPrefixOf? host).getD host

/-- The pieces of a list of characters. -/
def Parts.ofList (s : List Char) : Parts :=
  let fragment := s.dropWhile (· != '#')
  let beforeFragment := s.takeWhile (· != '#')
  let query := beforeFragment.dropWhile (· != '?')
  let (protocol, host, path) := splitAuthority (beforeFragment.takeWhile (· != '?'))
  let host := dropWww host
  { protocol, path, query, fragment
    domain := host.takeWhile (· != ':')
    port := host.dropWhile (· != ':') }

/-- The pieces of a link target. -/
def Parts.ofString (uri : String) : Parts :=
  Parts.ofList uri.toList

/-- The last stretch of the path, after a `/`, that is at least two code units long; the whole
    path when there is none. A slash at the end so stays with the name before it. -/
def Parts.pathEnd (p : Parts) : List Char :=
  ((tailsAfter '/' p.path).reverse.find? (2 ≤ listUnits ·)).getD p.path

end UniqueSelector.Uri
