import SwiftLoad.Http.Errors
import SwiftLoad.Http.Redirect
import SwiftLoad.Machine.Program

/-!
# Requests

`http/client.rs`: what a request looks like.  The HTTP library and the server behind it are a
parameter, `Net`: it answers the `n`-th request with a reply or a transport error, whatever it was
asked.  Code that talks to it is a `Program` whose state is the list of exchanges so far.
-/

namespace SwiftLoad

/-- A client, as `build` configures it.  Its timeouts and window sizes are left out. -/
structure Client where
  userAgent : String
  proxy : Option String
  /-- Environment proxies are bypassed. -/
  noProxy : Bool
deriving DecidableEq, Repr

/-- `ClientError`. -/
inductive ClientError
  | build (text : String)
  | proxy (text : String)
deriving DecidableEq, Repr

/-- What the user reads. -/
def ClientError.display : ClientError → String
  | build text => s!"failed to build HTTP client: {text}"
  | proxy text => s!"invalid proxy url: {text}"

/-- A `GET` request. -/
structure Request where
  client : Client
  url : Url
  headers : List (String × String)
deriving DecidableEq, Repr

/-- What the code reads of a reply besides the `Response`; the headers are those that are texts. -/
structure Reply extends Response where
  location : Option String := none
  contentLength : Option ℕ := none
  disposition : Option String := none
  contentType : Option String := none
  etag : Option String := none
  lastModified : Option String := none
  /-- Reading the whole body fails with this error. -/
  broken : Option String := none
deriving DecidableEq

/-- `Response::bytes`: the whole body. -/
def Reply.bytes (r : Reply) : Except String (List UInt8) := r.broken.elim (.ok r.body) .error

theorem Reply.bytes_eq_ok {r : Reply} {body : List UInt8} :
    r.bytes = .ok body ↔ r.broken = none ∧ r.body = body := by
  unfold Reply.bytes
  cases r.broken <;> simp

/-- A request and what came of it. -/
structure Exchange where
  request : Request
  /-- The kind of a transport error. -/
  answer : Except String Reply

/-- The HTTP library and the server. -/
structure Net where
  /-- What is wrong with a proxy URL. -/
  proxyError : String → Option String
  /-- Why a client cannot be built. -/
  buildError : Client → Option String
  /-- What comes of the `n`-th request. -/
  answer : ℕ → Request → Except String Reply
  /-- The text of a transport error: its kind, and the URL of the request. -/
  display : String → Url → String

/-- A loopback address.  The parser writes an IPv4 address as four decimal numbers. -/
def isLoopback (url : Url) : Bool :=
  url.host.any fun host =>
    let parts := host.splitOn "."
    eqIgnoreAsciiCase host.toList "localhost".toList || decide (host = "[::1]") ||
      (decide (parts.length = 4 ∧ parts.head? = some "127") && parts.all String.isNat)

/-- `build`: one client, intended for exactly one worker. -/
def Client.build (net : Net) (settings : Settings) (spec : RequestSpec) (target : Url) :
    Except ClientError Client :=
  match spec.proxy.bind net.proxyError with
  | some text => .error (.proxy text)
  | none =>
    let client : Client :=
      { userAgent := spec.userAgent.getD settings.userAgent
        proxy := spec.proxy
        -- never route loopback through an environment proxy
        noProxy := spec.proxy.isNone && isLoopback target }
    match net.buildError client with
    | some text => .error (.build text)
    | none => .ok client

/-- Building a client depends on the library, the host of the URL and nothing else of them. -/
theorem Client.build_congr {net net' : Net} {settings : Settings} {spec : RequestSpec}
    {url url' : Url} (hproxy : net.proxyError = net'.proxyError)
    (hbuild : net.buildError = net'.buildError) (hhost : url.host = url'.host) :
    Client.build net settings spec url = Client.build net' settings spec url' := by
  unfold Client.build isLoopback
  rw [hproxy, hbuild, hhost]

/-- `apply_spec`: the headers the engine always sends, and those of the caller. -/
def applySpec (spec : RequestSpec) : List (String × String) :=
  ("accept-encoding", "identity") ::
    (spec.referer.toList.map (("referer", ·)) ++ spec.cookies.toList.map (("cookie", ·)) ++
      spec.headers)

/-- Send a request and wait for the head of the reply. -/
def Net.send {ε : Type} (net : Net) (req : Request) :
    Program (List Exchange) ε (Except String Reply) :=
  modifyGet fun traffic =>
    let answer := net.answer traffic.length req
    (answer, traffic ++ [⟨req, answer⟩])

/-- The inclusive range of a `Range` header. -/
def rangeHeader (first last : ℕ) : String × String := ("range", s!"bytes={first}-{last}")

/-- The headers that carry credentials. -/
def isCredential (name : String) : Bool :=
  ["authorization", "cookie", "proxy-authorization"].any fun s =>
    eqIgnoreAsciiCase name.toList s.toList

/-- The request carries credentials. -/
def Request.credentialed (req : Request) : Bool := req.headers.any fun h => isCredential h.1

/-- The caller supplies credentials. -/
def RequestSpec.credentialed (spec : RequestSpec) : Bool :=
  spec.cookies.isSome || spec.headers.any fun h => isCredential h.1

/-- Applying a spec to a request adds its credentials and no others. -/
theorem credentialed_applySpec (spec : RequestSpec) :
    ((applySpec spec).any fun h => isCredential h.1) = spec.credentialed := by
  have hcookie : isCredential "cookie" = true := by decide
  have henc : isCredential "accept-encoding" = false := by decide
  have href : isCredential "referer" = false := by decide
  cases hr : spec.referer <;> cases hc : spec.cookies <;>
    simp [applySpec, RequestSpec.credentialed, hr, hc, hcookie, henc, href]

end SwiftLoad
