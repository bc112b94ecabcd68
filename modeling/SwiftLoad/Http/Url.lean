import SwiftLoad.Config

/-!
# URLs

A URL is the record of its parts.  What the URL library does with text (parse, join, print, the
form encoding of a query) is a parameter, `UrlLib`; the two things the code needs to know about it
are named hypotheses where they are used.
-/

namespace SwiftLoad

/-- `url::Url`, as its accessors show it. -/
structure Url where
  scheme : String
  username : String := ""
  password : Option String := none
  host : Option String
  /-- The port, unless it is the default of the scheme. -/
  port : Option ℕ := none
  path : String
  query : Option String := none
  fragment : Option String := none
deriving DecidableEq, Repr

namespace Url

/-- The default port of a scheme. -/
def knownDefaultPort (scheme : String) : Option ℕ :=
  if scheme = "http" ∨ scheme = "ws" then some 80
  else if scheme = "https" ∨ scheme = "wss" then some 443
  else if scheme = "ftp" then some 21
  else none

/-- `port_or_known_default`. -/
def portOrKnownDefault (u : Url) : Option ℕ := u.port <|> knownDefaultPort u.scheme

/-- A URL without a host, and a `file` URL, cannot hold a username or a password. -/
def canHaveUserinfo (u : Url) : Bool :=
  decide (u.host ≠ none ∧ u.host ≠ some "" ∧ u.scheme ≠ "file")

/-- `set_username("")` and `set_password(None)`, which fail without effect where a URL cannot hold
credentials. -/
def clearUserinfo (u : Url) : Url :=
  if u.canHaveUserinfo then { u with username := "", password := none } else u

end Url

/-- The URL library.  An error is its text. -/
structure UrlLib where
  /-- `Url::parse`. -/
  parse : String → Except String Url
  /-- `Url::join`. -/
  join : Url → String → Except String Url
  /-- `Url::as_str`. -/
  print : Url → String
  /-- The pairs of a query, percent-decoded (`query_pairs`). -/
  queryPairs : String → List (String × String)
  /-- A query from pairs (`query_pairs_mut` and `append_pair`). -/
  formEncode : List (String × String) → String

namespace UrlLib

/-- A library that knows the texts of a table, each with its URL or its error, and some queries. -/
def ofTable (urls : List (String × Except String Url))
    (queries : List (String × List (String × String))) : UrlLib where
  parse s := (urls.lookup s).getD (.error "relative URL without a base")
  join _ s := (urls.lookup s).getD (.error "relative URL without a base")
  print u := ((urls.find? fun p => p.2.toOption = some u).map Prod.fst).getD ""
  queryPairs s := (queries.lookup s).getD []
  formEncode ps := ((queries.find? fun p => p.2 = ps).map Prod.fst).getD ""

variable (lib : UrlLib)

/-- The names of the parameters of a URL, in order. -/
def names (u : Url) : List String := (lib.queryPairs (u.query.getD "")).map Prod.fst

/-- The parser puts a username or a password only where the setters can remove them. -/
def UserinfoClearable : Prop :=
  ∀ raw u, lib.parse raw = .ok u → u.canHaveUserinfo = false → u.username = "" ∧ u.password = none

/-- A table of URLs without userinfo is clearable. -/
theorem ofTable_clearable {urls : List (String × Except String Url)}
    {queries : List (String × List (String × String))}
    (h : ∀ p ∈ urls, ∀ u, p.2 = .ok u → u.username = "" ∧ u.password = none) :
    (ofTable urls queries).UserinfoClearable := by
  intro raw u hu _
  change (urls.lookup raw).getD (.error _) = .ok u at hu
  cases hl : urls.lookup raw with
  | none => rw [hl] at hu; cases hu
  | some r =>
    rw [hl] at hu
    obtain ⟨l₁, l₂, rfl, _⟩ := List.lookup_eq_some_iff.1 hl
    exact h (raw, r) (List.mem_append_right _ List.mem_cons_self) u hu

/-- Two parsed URLs differ at most in the values of their query parameters, in their userinfo and
in their fragment.  That there is a query at all is not a value. -/
structure SamePublic (u v : Url) : Prop where
  scheme : u.scheme = v.scheme
  host : u.host = v.host
  port : u.port = v.port
  path : u.path = v.path
  hasQuery : u.query.isSome = v.query.isSome
  names : lib.names u = lib.names v

/-- Two texts differ at most in the secrets of a URL; of a text that is no URL everything but the
length is secret. -/
def SameUrl (a b : String) : Prop :=
  match lib.parse a, lib.parse b with
  | .ok u, .ok v => lib.SamePublic u v
  | .error _, .error _ => a.utf8ByteSize = b.utf8ByteSize
  | _, _ => False

end UrlLib

end SwiftLoad
