import SwiftLoad.Util.Redact

/-!
# Redirects

`http/redirect.rs`.  Redirects are followed by hand, so that three rules apply: no protocol
downgrade, no credentials across origins, and a recorded chain.

* `nextUrl_ok` : what a redirect that is followed satisfies.
-/

namespace SwiftLoad

/-- A character inside the debug form of a text. -/
def debugChar (c : Char) : List Char :=
  if c = '"' then ['\\', '"']
  else if c = '\\' then ['\\', '\\']
  else if c = '\t' then ['\\', 't']
  else if c = '\n' then ['\\', 'n']
  else if c = '\r' then ['\\', 'r']
  else if c = '\x00' then ['\\', '0']
  else [c]

/-- `{:?}` of a text.  A header value and the scheme of a URL are visible ASCII; a text with
characters that are not printable has more escapes. -/
def debugStr (s : String) : String := .ofList ('"' :: (s.toList.flatMap debugChar ++ ['"']))

/-- Read one character of the debug form of a text. -/
def readDebug : List Char → Option (Char × List Char)
  | '\\' :: '"' :: x => some ('"', x)
  | '\\' :: '\\' :: x => some ('\\', x)
  | '\\' :: 't' :: x => some ('\t', x)
  | '\\' :: 'n' :: x => some ('\n', x)
  | '\\' :: 'r' :: x => some ('\r', x)
  | '\\' :: '0' :: x => some ('\x00', x)
  | c :: x => if c = '"' then none else some (c, x)
  | [] => none

theorem readDebug_append (c : Char) (x : List Char) :
    readDebug (debugChar c ++ x) = some (c, x) := by
  unfold debugChar
  split_ifs with h₁ h₂ h₃ h₄ h₅ h₆
  · rw [h₁]; rfl
  · rw [h₂]; rfl
  · rw [h₃]; rfl
  · rw [h₄]; rfl
  · rw [h₅]; rfl
  · rw [h₆]; rfl
  · simp [readDebug, h₁, h₂]

theorem eq_of_debug {a b s t : List Char}
    (h : a.flatMap debugChar ++ '"' :: s = b.flatMap debugChar ++ '"' :: t) : a = b := by
  induction a generalizing b with
  | nil =>
    cases b with
    | nil => rfl
    | cons d b =>
      have h := congrArg readDebug h
      rw [List.flatMap_cons, List.append_assoc, readDebug_append] at h
      cases h
  | cons c a ih =>
    have h := congrArg readDebug h
    rw [List.flatMap_cons, List.append_assoc, readDebug_append] at h
    cases b with
    | nil => cases h
    | cons d b =>
      rw [List.flatMap_cons, List.append_assoc, readDebug_append] at h
      obtain ⟨rfl, hrest⟩ := Prod.mk.inj (Option.some.inj h)
      rw [ih hrest]

/-- The debug form of a text ends with its closing quote, and tells the text. -/
theorem eq_of_debugStr_append {a b s t : String} (h : debugStr a ++ s = debugStr b ++ t) :
    a = b := by
  have h := congrArg String.toList h
  simp only [debugStr, String.toList_append, String.toList_ofList, List.cons_append,
    List.append_assoc, List.nil_append, List.cons.injEq, true_and] at h
  exact String.toList_inj.1 (eq_of_debug h)

/-- `RedirectError`. -/
inductive RedirectError
  | tooMany (n : ℕ)
  /-- https to http, refused by default. -/
  | insecureDowngrade
  /-- Anything that is not http or https. -/
  | unsupportedScheme (scheme : String)
  | malformed (text : String)
deriving DecidableEq, Repr

/-- What the user reads. -/
def RedirectError.display : RedirectError → String
  | tooMany n => s!"redirect chain exceeded {n} hops"
  | insecureDowngrade => "refused https to http redirect"
  | unsupportedScheme scheme =>
    let scheme := debugStr scheme
    s!"refused redirect to unsupported scheme {scheme}"
  | malformed text => s!"malformed redirect target: {text}"

/-- One hop in a followed chain.  Always redacted. -/
structure Hop where
  url : String
  status : ℕ
deriving DecidableEq, Repr

/-- Only `http` and `https` are downloadable. -/
def Url.downloadable (u : Url) : Bool := decide (u.scheme = "http" ∨ u.scheme = "https")

section

variable (lib : UrlLib)

/-- `next_url`: the next URL for a redirect response, under the safety rules. -/
def nextUrl (current : Url) (location : String) (allowDowngrade : Bool) :
    Except RedirectError Url :=
  match lib.join current location with
  | .error error =>
    let location := debugStr location
    .error (.malformed s!"{location}: {error}")
  | .ok next =>
    if next.downloadable = false then .error (.unsupportedScheme next.scheme)
    else if current.scheme = "https" ∧ next.scheme = "http" ∧ allowDowngrade = false then
      .error .insecureDowngrade
    else .ok next

/-- `record_hop`. -/
def recordHop (url : Url) (status : ℕ) : Hop := ⟨Redact.redact lib (lib.print url), status⟩

end

/-- `is_cross_origin`: whether credentials must be stripped when moving between these URLs. -/
def isCrossOrigin (source target : Url) : Bool :=
  decide (source.scheme ≠ target.scheme ∨ source.host ≠ target.host ∨
    source.portOrKnownDefault ≠ target.portOrKnownDefault)

variable {lib : UrlLib} {current next : Url} {location : String} {allowDowngrade : Bool}

theorem Url.downloadable_iff {u : Url} :
    u.downloadable = true ↔ u.scheme = "http" ∨ u.scheme = "https" := decide_eq_true_iff

/-- A redirect that is followed leads to a downloadable URL, and away from https only when that is
allowed. -/
theorem nextUrl_ok (h : nextUrl lib current location allowDowngrade = .ok next) :
    lib.join current location = .ok next ∧ next.downloadable = true ∧
      (allowDowngrade = false → current.scheme = "https" → next.scheme = "https") := by
  unfold nextUrl at h
  cases hjoin : lib.join current location with
  | error error => rw [hjoin] at h; cases h
  | ok u =>
    rw [hjoin] at h
    dsimp only at h
    split_ifs at h with hscheme hdown
    obtain rfl := Except.ok.inj h
    have hdl : u.downloadable = true := by simpa using hscheme
    refine ⟨rfl, hdl, fun hallow hhttps => ?_⟩
    rcases Url.downloadable_iff.1 hdl with hhttp | hhttps'
    · exact absurd ⟨hhttps, hhttp, hallow⟩ hdown
    · exact hhttps'

end SwiftLoad
