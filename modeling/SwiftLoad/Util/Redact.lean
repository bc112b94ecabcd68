import SwiftLoad.Http.Url

/-!
# URL redaction

`util/redact.rs`.  Everything but the three columns a download fetches from sees a URL redacted:
the names of the query parameters survive, their values, the userinfo and the fragment do not.

* `redact_congr` : the redacted form is the same for any two URLs that differ only in what it
  must not show.
-/

namespace SwiftLoad

namespace Redact

/-- Stands for every value. -/
def placeholder : String := "<redacted>"

section

variable (lib : UrlLib)

/-- A URL without its secrets. -/
def strip (url : Url) : Url :=
  let url := { url.clearUserinfo with fragment := none }
  let names := lib.names url
  if names = [] then
    -- a "?" survives only if there was a query string at all
    if url.query.isSome then { url with query := some "" } else url
  else { url with query := some (lib.formEncode (names.map fun name => (name, placeholder))) }

/-- `redact`. -/
def redact (raw : String) : String :=
  match lib.parse raw with
  | .error _ =>
    let len := raw.utf8ByteSize
    s!"<unparseable url, {len} chars>"
  | .ok url => lib.print (strip lib url)

/-- `host_of`. -/
def hostOf (raw : String) : String :=
  match lib.parse raw with
  | .error _ => "<unknown>"
  | .ok url => url.host.getD "<unknown>"

end

variable {lib : UrlLib} {u v : Url} {a b : String}

/-- A URL without its userinfo and its fragment. -/
def bare (u : Url) : Url := { u with username := "", password := none, fragment := none }

theorem clearUserinfo_eq (hu : u.canHaveUserinfo = false → u.username = "" ∧ u.password = none) :
    u.clearUserinfo = { u with username := "", password := none } := by
  unfold Url.clearUserinfo
  split_ifs with hc
  · rfl
  · obtain ⟨hname, hpass⟩ := hu (Bool.eq_false_iff.2 hc)
    simp only [← hname, ← hpass]

/-- What is left of a URL, part by part. -/
theorem strip_eq (hu : u.canHaveUserinfo = false → u.username = "" ∧ u.password = none) :
    strip lib u = { bare u with
      query := if lib.names u = [] then if u.query.isSome then some "" else none
        else some (lib.formEncode ((lib.names u).map fun name => (name, placeholder))) } := by
  unfold strip
  rw [clearUserinfo_eq hu]
  change (if lib.names u = [] then if u.query.isSome then _ else _ else _) = _
  split_ifs with hnil hq
  · rfl
  · have hnone : u.query = none := Option.not_isSome_iff_eq_none.1 hq
    simp only [bare, hnone]
  · rfl

/-- A URL is redacted to what it has in public. -/
theorem strip_congr (hu : u.canHaveUserinfo = false → u.username = "" ∧ u.password = none)
    (hv : v.canHaveUserinfo = false → v.username = "" ∧ v.password = none)
    (h : lib.SamePublic u v) : strip lib u = strip lib v := by
  rw [strip_eq hu, strip_eq hv, h.hasQuery, h.names]
  simp only [bare, h.scheme, h.host, h.port, h.path]

theorem redact_congr (hlib : lib.UserinfoClearable) (h : lib.SameUrl a b) :
    redact lib a = redact lib b := by
  unfold UrlLib.SameUrl at h
  unfold redact
  cases ha : lib.parse a with
  | error e =>
    cases hb : lib.parse b with
    | error e' =>
      rw [ha, hb] at h
      simp only [h]
    | ok v => rw [ha, hb] at h; exact h.elim
  | ok u =>
    cases hb : lib.parse b with
    | error e => rw [ha, hb] at h; exact h.elim
    | ok v =>
      rw [ha, hb] at h
      exact congrArg lib.print (strip_congr (hlib a u ha) (hlib b v hb) h)

theorem hostOf_congr (h : lib.SameUrl a b) : hostOf lib a = hostOf lib b := by
  unfold UrlLib.SameUrl at h
  unfold hostOf
  cases ha : lib.parse a with
  | error e =>
    cases hb : lib.parse b with
    | error e' => rfl
    | ok v => rw [ha, hb] at h; exact h.elim
  | ok u =>
    cases hb : lib.parse b with
    | error e => rw [ha, hb] at h; exact h.elim
    | ok v =>
      rw [ha, hb] at h
      exact congrArg (·.getD "<unknown>") h.host

end Redact

end SwiftLoad
