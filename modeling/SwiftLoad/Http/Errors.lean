import SwiftLoad.Config
import SwiftLoad.Util.Filename

/-!
# Responses and error classes

`http/errors.rs`, and what the engine reads of a response (`http/headers.rs`).  Responses carry
their headers already parsed: the retry delay, the content range, and whether the content encoding
transforms the body.
-/

namespace SwiftLoad

/-- `ErrorClass`. -/
inductive ErrorClass
  /-- Reset, timeout, DNS hiccup, TLS handshake failure. -/
  | transientNetwork
  /-- 5xx, 408, 425. -/
  | transientServer
  /-- 429, or 503. -/
  | rateLimited (retryAfter : Option Nanos)
  /-- 403 on a URL that previously worked. -/
  | urlExpired
  /-- 401/404/410/451, or 403 on the very first request. -/
  | fatal
  /-- Server ignored `Range` on the initial request. -/
  | rangeUnsupported
  /-- Server advertised range support, then ignored it mid-download. -/
  | rangeLied
  /-- The resource is not what we started downloading. -/
  | resourceChanged
  /-- Disk full, permission denied, path too long. -/
  | localFatal
  | networkDown
deriving DecidableEq, Repr

namespace ErrorClass

/-- `is_retryable`: whether a retry could plausibly succeed without user intervention. -/
def isRetryable : ErrorClass → Bool
  | transientNetwork | transientServer | rateLimited _ | networkDown => true
  | _ => false

/-- `should_reduce_concurrency`: a rate limit answered with more connections is both abusive and
slower. -/
def shouldReduceConcurrency : ErrorClass → Bool
  | rateLimited _ => true
  | _ => false

end ErrorClass

/-- `classify_status`. -/
def classifyStatus (status : ℕ) (retryAfter : Option Nanos) (urlPreviouslyWorked : Bool) :
    ErrorClass :=
  if status = 429 then .rateLimited retryAfter
  else if status = 503 then .rateLimited retryAfter
  else if status ∈ [500, 502, 504, 408, 425] then .transientServer
  else if status = 403 ∧ urlPreviouslyWorked then .urlExpired
  else if status = 416 then .resourceChanged
  else if status ∈ [401, 403, 404, 410, 451] then .fatal
  else if 500 ≤ status ∧ status < 600 then .transientServer
  else .fatal

/-- A parsed `Content-Range: bytes START-END/TOTAL`; `stop` is the source's inclusive `end`.  The
parser refuses a range that is empty or passes its own total. -/
structure ContentRange where
  start : ℕ
  stop : ℕ
  total : Option ℕ
  start_le : start ≤ stop
  stop_lt : ∀ t, total = some t → stop < t
deriving DecidableEq

/-- The bytes of a file of known size up to one of them. -/
def ContentRange.upTo (stop total : ℕ) (h : stop < total) : ContentRange where
  start := 0
  stop := stop
  total := some total
  start_le := Nat.zero_le stop
  stop_lt := fun _ ht => Option.some.inj ht ▸ h

/-- An entity validator. -/
inductive Validator
  /-- Asserts byte-for-byte identity. -/
  | strong (raw : String)
  /-- Asserts only semantic equivalence. -/
  | weak (raw : String)
deriving DecidableEq, Repr

namespace Validator

/-- `Validator::parse`. -/
def parse (v : String) : Option Validator :=
  match Filename.trim v.toList with
  | [] => none
  | 'W' :: '/' :: rest | 'w' :: '/' :: rest => some (.weak (.ofList (Filename.trim rest)))
  | v => some (.strong (.ofList v))

/-- `is_strong`. -/
def isStrong : Validator → Bool
  | strong _ => true
  | weak _ => false

/-- The tag without the mark of a weak validator. -/
def raw : Validator → String
  | strong s | weak s => s

/-- The value to send back. -/
def asHeader : Validator → String
  | strong s => s
  | weak s => "W/" ++ s

end Validator

/-- What a worker reads of an HTTP response. -/
structure Response where
  status : ℕ
  retryAfter : Option Nanos := none
  contentRange : Option ContentRange := none
  /-- The content encoding transforms the body, which makes byte offsets meaningless. -/
  transforming : Bool := false
  body : List UInt8
deriving DecidableEq

/-- The status says that the body is what was asked for. -/
def Response.success (r : Response) : Bool := decide (200 ≤ r.status ∧ r.status < 300)

/-- `bytes` are the bytes of the resource from `offset` on. -/
def Placed (B : ℕ → UInt8) (offset : ℕ) (bytes : List UInt8) : Prop :=
  ∀ i v, bytes[i]? = some v → v = B (offset + i)

/-- A response tells the truth about a resource with the bytes `B`: a 206 whose content range
starts at `a` carries the bytes from `a` on, a 200 carries them from the beginning.  Nothing is
assumed of other statuses, nor about how much of the body arrives. -/
def Response.Honest (B : ℕ → UInt8) (r : Response) : Prop :=
  (∀ cr, r.status = 206 → r.contentRange = some cr → Placed B cr.start r.body) ∧
    (r.status = 200 → Placed B 0 r.body)

end SwiftLoad
