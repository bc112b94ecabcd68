import SwiftLoad.Task.Delivery
import SwiftLoad.Task.Probing
import SwiftLoad.Testserver.Serve

/-!
# Downloads from the test server

The engine and the test server together: what a probe learns from the server, and what a download
publishes whose responses all come from it.

* `probe_testserver` : **what a probe learns of the server.**
* `testserver_delivers` : **a download with ranges publishes the content, whatever the scenarios.**
-/

namespace SwiftLoad

namespace Testserver

open Filename Text

/-- What the probe reads of an answer. -/
def Answer.reply (untilDate : Name → Option Nanos) (a : Answer) (body : List UInt8) : Reply where
  toResponse := a.response untilDate body
  location := (a.headers.text "location").map String.ofList
  contentLength := (a.headers.text "content-length").bind parseU64
  disposition := (a.headers.text "content-disposition").map String.ofList
  contentType := (a.headers.text "content-type").map String.ofList
  etag := (a.headers.text "etag").map String.ofList
  lastModified := (a.headers.text "last-modified").map String.ofList

/-- The `Range` header of the probe. -/
def probeRange : Option Name := some (rangeHeader 0 0).2.toList

section Probe

variable {untilDate : Name → Option Nanos} {st st' : AppState} {sc : Scenario} {a : Answer}
  {body : List UInt8} {naming : Naming} {url : Url} {chain : List Hop}

theorem parseRange_probeRange (size : ℕ) : parseRange probeRange size = some (0, 0) := by
  unfold probeRange
  rw [parseRange_rangeHeader (Nat.zero_le _) (Nat.zero_le _), Nat.zero_min, if_neg (lt_irrefl 0)]

theorem contentLength_reply {tick start stop : ℕ} {honour : Bool} {status : ℕ} {b : Body}
    (h : stop + 1 - start ≤ u64Max) :
    (Answer.reply untilDate ⟨status, sc.headers tick honour start stop, b⟩ body).contentLength =
      if sc.advertiseLen then some (stop + 1 - start) else none := by
  unfold Answer.reply HeaderMap.text
  simp only [lookup_contentLength]
  cases sc.advertiseLen with
  | true =>
    simp only [if_true, Option.bind_some, (visible_toDigits _).toStr, parseU64_toDigits h]
  | false => rfl

/-- What the probe reads off a response with the bytes from `start` to `stop`. -/
structure Reads (reply : Reply) (sc : Scenario) (honour : Bool) (start stop : ℕ) : Prop where
  status : reply.status = if honour then 206 else 200
  contentRange : reply.contentRange =
    if honour then parseContentRange (rangeText start stop sc.size) else none
  transforming : reply.transforming = sc.gzipAnyway
  contentLength : reply.contentLength = if sc.advertiseLen then some (stop + 1 - start) else none

theorem reads_reply {tick start stop status : ℕ} {honour : Bool} {b : Body}
    (hstatus : status = if honour then 206 else 200) (h : stop + 1 - start ≤ u64Max) :
    Reads (Answer.reply untilDate ⟨status, sc.headers tick honour start stop, b⟩ body)
      sc honour start stop :=
  ⟨hstatus, contentRange_response, transforming_response, contentLength_reply h⟩

/-- What is learned from the server that is not at its cap. -/
theorem interpret_reply (hfree : sc.full st = false) (hsize : sc.size ≤ u64Max)
    (h : serve st sc probeRange = (st', some a)) :
    ((interpret naming (a.reply untilDate body) url chain).rangeSupport = .supported ↔
      sc.ranges = .yes ∧ sc.gzipAnyway = false ∧ 0 < sc.size) ∧
    ((interpret naming (a.reply untilDate body) url chain).totalSize = some sc.size ↔
      0 < sc.size ∧ (sc.ranges = .yes ∨ sc.advertiseLen = true)) := by
  have hpos : 0 < u64Max := by decide
  cases serves h with
  | refused hfull => rw [hfree] at hfull; simp at hfull
  | unsatisfiable _ _ hnone => rw [parseRange_probeRange] at hnone; simp at hnone
  | slice _ hyes start stop hsome =>
    obtain ⟨rfl, rfl⟩ : 0 = start ∧ 0 = stop := by
      simpa [parseRange_probeRange] using hsome
    obtain ⟨hstatus, hrange, htrans, hlength⟩ : Reads (Answer.reply untilDate
      ⟨206, sc.headers st.etagTick true 0 0, .stream ⟨sc, 0, 0 + 1 - 0, 0, false⟩⟩ body)
      sc true 0 0 := reads_reply rfl hpos
    generalize Answer.reply untilDate ⟨206, sc.headers st.etagTick true 0 0,
      .stream ⟨sc, 0, 0 + 1 - 0, 0, false⟩⟩ body = reply at hstatus hrange htrans hlength ⊢
    rw [if_pos rfl] at hstatus hrange
    by_cases hzero : 0 < sc.size
    · rw [parse_rangeText ⟨0, 0, some sc.size, le_rfl, by simpa using hzero⟩ hsize rfl] at hrange
      cases hgzip : sc.gzipAnyway <;>
        simp [interpret, hstatus, hrange, htrans, hyes, hzero, hgzip]
    · -- the range of a file without bytes is not read, and one byte is announced
      obtain hsize : sc.size = 0 := by omega
      rw [hsize, parse_rangeText_zero] at hrange
      cases hgzip : sc.gzipAnyway <;> cases hlen : sc.advertiseLen <;>
        simp [interpret, hstatus, hrange, htrans, hlength, hsize, hgzip, hlen]
  | whole _ hno =>
    have hyes : sc.ranges ≠ .yes := hno.resolve_right fun h => by
      rw [parseRange_probeRange] at h
      simp at h
    have hmax : sc.size - 1 + 1 - 0 ≤ u64Max := by omega
    obtain ⟨hstatus, hrange, htrans, hlength⟩ : Reads (Answer.reply untilDate
      ⟨200, sc.headers st.etagTick false 0 (sc.size - 1),
        .stream ⟨sc, 0, sc.size - 1 + 1 - 0, 0, false⟩⟩ body) sc false 0 (sc.size - 1) :=
      reads_reply rfl hmax
    generalize Answer.reply untilDate ⟨200, sc.headers st.etagTick false 0 (sc.size - 1),
      .stream ⟨sc, 0, sc.size - 1 + 1 - 0, 0, false⟩⟩ body = reply
      at hstatus hrange htrans hlength ⊢
    have htotal : sc.size - 1 + 1 - 0 = sc.size ↔ 0 < sc.size := by omega
    cases hgzip : sc.gzipAnyway <;> cases hlen : sc.advertiseLen <;>
      simp_all [interpret]

end Probe

/-! ### The probe -/

/-- The header is a `Range`. -/
def isRange (name : String) : Bool := eqIgnoreAsciiCase name.toList "range".toList

/-- The `Range` header of a request, when there is one that is a text. -/
def rangeOf (req : Request) : Option Name :=
  (req.headers.find? fun h => isRange h.1).bind fun h => toStr h.2.toList

/-- The first request goes to the server; of the body as much arrives as the library reads. -/
def ServedBy (untilDate : Name → Option Nanos) (st : AppState) (sc : Scenario) (net : Net) :
    Prop :=
  ∀ req, ∃ st' a body, serve st sc (rangeOf req) = (st', some a) ∧ body <+: a.body.bytes ∧
    net.answer 0 req = .ok (a.reply untilDate body)

section Probing

variable {untilDate : Name → Option Nanos} {st : AppState} {sc : Scenario} {lib : UrlLib}
  {net : Net} {naming : Naming} {settings : Settings} {spec : RequestSpec} {worked : Bool}
  {raw : String} {origin url : Url} {client : Client}

/-- The `Range` header that the engine adds is the one the server reads, unless the caller asks for
a range. -/
theorem rangeOf_applySpec {req : Request} {first last : ℕ}
    (hspec : ∀ h ∈ spec.headers, isRange h.1 = false)
    (hreq : req.headers = applySpec spec ++ [rangeHeader first last]) :
    rangeOf req = some (rangeHeader first last).2.toList := by
  have hnone : ((applySpec spec).find? fun h => isRange h.1) = none := by
    rw [List.find?_eq_none]
    intro h hh
    unfold applySpec at hh
    simp only [List.mem_cons, List.mem_append, List.mem_map] at hh
    rcases hh with rfl | (⟨_, -, rfl⟩ | ⟨_, -, rfl⟩) | hh
    · decide
    · simp only [isRange]; decide
    · simp only [isRange]; decide
    · simp [hspec h hh]
  have hrange : ([rangeHeader first last].find? fun h => isRange h.1) =
      some (rangeHeader first last) := List.find?_cons_of_pos (by simp only [rangeHeader]; decide)
  have hvisible : Visible (rangeHeader first last).2.toList := by
    rw [rangeHeader_toList]
    have hword : Visible "bytes=".toList := .of_all (by decide)
    have hdash : Visible ['-'] := .of_all (by decide)
    exact hword.append ((visible_toDigits first).append (hdash.append (visible_toDigits last)))
  unfold rangeOf
  rw [hreq, List.find?_append, hnone, Option.none_or, hrange, Option.bind_some, hvisible.toStr]

theorem rangeOf_probeRequest (hspec : ∀ h ∈ spec.headers, isRange h.1 = false) :
    rangeOf (probeRequest client spec origin url) = probeRange := by
  refine @rangeOf_applySpec (effectiveSpec spec origin url) _ 0 0 (fun h hh => ?_) rfl
  unfold effectiveSpec stripAuth at hh
  split_ifs at hh
  · exact hspec h (List.mem_filter.1 hh).1
  · exact hspec h hh

variable (naming worked) in
/-- The probe sends one request, and goes by what the server answers. -/
theorem runFrom_probe (hurl : validateUrl lib raw = .ok url)
    (hclient : Client.build net settings spec url = .ok client)
    (hspec : ∀ h ∈ spec.headers, isRange h.1 = false) (hnet : ServedBy untilDate st sc net) :
    ∃ st' a body x, serve st sc probeRange = (st', some a) ∧
      (probe lib net naming settings spec worked raw).runFrom [] =
        (if (a.reply untilDate body).success then
          .ok (interpret naming (a.reply untilDate body) url [])
        else .error (.status (a.reply untilDate body).status
          (classifyStatus (a.reply untilDate body).status (a.reply untilDate body).retryAfter
            worked)), [x]) := by
  obtain ⟨st', a, body, hserve, -, hanswer⟩ := hnet (probeRequest client spec url url)
  rw [rangeOf_probeRequest hspec] at hserve
  refine ⟨st', a, body, ⟨probeRequest client spec url url, .ok (a.reply untilDate body)⟩, hserve,
    ?_⟩
  have hred : (a.reply untilDate body).isRedirect = false := by
    have hstatus : (a.reply untilDate body).status = a.status := rfl
    unfold Reply.isRedirect
    rw [hstatus]
    cases serves hserve <;> rfl
  unfold probe
  rw [hurl]
  dsimp only
  rw [follow, Program.runFrom_bind]
  unfold hop ask
  simp only [hclient, Program.runFrom_bind, Net.send, Program.runFrom_modifyGet, List.length_nil,
    hanswer, Program.runFrom_pure, hred, Bool.false_eq_true, if_false]
  cases hsucc : (a.reply untilDate body).success with
  | true => simp
  | false => simp

theorem retryAfter_refused {status : ℕ} {b : Body} {body : List UInt8} :
    (Answer.response untilDate ⟨status, [("retry-after", ['1'])], b⟩ body).retryAfter =
      some (secs 1) := by
  have hone : parseU64 (trim ['1']) = some 1 := by decide
  have htext : HeaderMap.text [("retry-after", ['1'])] "retry-after" = some ['1'] := by decide
  unfold Answer.response parseRetryAfter
  simp only [htext, Option.bind_some, hone, Option.some.injEq]
  decide

theorem success_reply {st' : AppState} {a : Answer} {body : List UInt8}
    (h : serve st sc probeRange = (st', some a)) :
    (a.reply untilDate body).success = !sc.full st := by
  cases serves h with
  | refused hfull => rw [hfull]; rfl
  | unsatisfiable _ _ hnone => rw [parseRange_probeRange] at hnone; simp at hnone
  | slice hfree => rw [hfree]; rfl
  | whole hfree => rw [hfree]; rfl

/-- **A probe of the server.**  It sends one request.  At the cap of the server it is asked to come
back a second later; else it learns that ranges work exactly when they do and the body is not
transformed, and it learns the size exactly when there is a byte and the server states it. -/
theorem probe_testserver (hurl : validateUrl lib raw = .ok url)
    (hclient : Client.build net settings spec url = .ok client)
    (hspec : ∀ h ∈ spec.headers, isRange h.1 = false) (hnet : ServedBy untilDate st sc net)
    (hsize : sc.size ≤ u64Max) :
    ∃ result x, (probe lib net naming settings spec worked raw).runFrom [] = (result, [x]) ∧
      if sc.full st then result = .error (.status 429 (.rateLimited (some (secs 1))))
      else ∃ details, result = .ok details ∧ details.finalUrl = url ∧
        (details.rangeSupport = .supported ↔
          sc.ranges = .yes ∧ sc.gzipAnyway = false ∧ 0 < sc.size) ∧
        (details.totalSize = some sc.size ↔
          0 < sc.size ∧ (sc.ranges = .yes ∨ sc.advertiseLen = true)) := by
  obtain ⟨st', a, body, x, hserve, hrun⟩ := runFrom_probe naming worked hurl hclient hspec hnet
  refine ⟨_, x, hrun, ?_⟩
  rw [success_reply hserve]
  cases hfull : sc.full st with
  | true =>
    cases serves hserve with
    | refused =>
      have hafter : (Answer.reply untilDate ⟨429, [("retry-after", ['1'])],
          .text "too many connections"⟩ body).retryAfter = some (secs 1) := retryAfter_refused
      rw [hafter]
      rfl
    | unsatisfiable hfree => rw [hfull] at hfree; simp at hfree
    | slice hfree => rw [hfull] at hfree; simp at hfree
    | whole hfree => rw [hfull] at hfree; simp at hfree
  | false => exact ⟨_, rfl, rfl, interpret_reply hfull hsize hserve⟩

/-- A network with the server at the other end. -/
def serverNet (untilDate : Name → Option Nanos) (st : AppState) (sc : Scenario) : Net where
  proxyError _ := none
  buildError _ := none
  answer _ req :=
    match (serve st sc (rangeOf req)).2 with
    | some a => .ok (a.reply untilDate a.body.bytes)
    | none => .error "connection closed"
  display kind _ := kind

theorem answer_serverNet {req : Request} {st' : AppState} {a : Answer}
    (h : serve st sc (rangeOf req) = (st', some a)) (n : ℕ) :
    (serverNet untilDate st sc).answer n req = .ok (a.reply untilDate a.body.bytes) := by
  unfold serverNet
  simp only [h]

theorem exists_respond (hname : sc.filename.all headerValue = true) (honour : Bool)
    (start stop : ℕ) : ∃ st' a, respond st sc honour start stop = (st', some a) := by
  unfold respond
  dsimp only
  rw [if_pos hname]
  exact ⟨_, _, rfl⟩

theorem exists_answer (hname : sc.filename.all headerValue = true) (range : Option Name) :
    ∃ st' a, serve st sc range = (st', some a) := by
  unfold serve
  dsimp only
  split
  · exact ⟨_, _, rfl⟩
  · cases parseRange range sc.size with
    | some r =>
      dsimp only
      split_ifs
      · exact exists_respond hname _ _ _
      · exact exists_respond hname _ _ _
    | none =>
      dsimp only
      split_ifs
      · exact ⟨_, _, rfl⟩
      · exact exists_respond hname _ _ _

theorem servedBy_serverNet (hname : sc.filename.all headerValue = true) :
    ServedBy untilDate st sc (serverNet untilDate st sc) := by
  intro req
  obtain ⟨st', a, ha⟩ : ∃ st' a, serve st sc (rangeOf req) = (st', some a) :=
    exists_answer hname _
  exact ⟨st', a, a.body.bytes, ha, List.prefix_rfl, answer_serverNet ha 0⟩

/-- A library that knows the URL of the server. -/
def plainLib : UrlLib := .ofTable
  [("http://localhost/f", .ok { scheme := "http", host := some "localhost", path := "/f" })] []

/-- A server of two bytes. -/
def tinyScenario : Scenario := { seed := 1, size := 2 }

/-- The probe of it. -/
theorem probe_testserver_tiny :
    ∃ result x, (probe plainLib (serverNet (fun _ => none) {} tinyScenario) (fun _ _ _ => ['a']) {}
        {} false "http://localhost/f").runFrom [] = (result, [x]) ∧
      if tinyScenario.full {} then result = .error (.status 429 (.rateLimited (some (secs 1))))
      else ∃ details, result = .ok details ∧
        details.finalUrl = { scheme := "http", host := some "localhost", path := "/f" } ∧
        (details.rangeSupport = .supported ↔
          tinyScenario.ranges = .yes ∧ tinyScenario.gzipAnyway = false ∧ 0 < tinyScenario.size) ∧
        (details.totalSize = some tinyScenario.size ↔
          0 < tinyScenario.size ∧
            (tinyScenario.ranges = .yes ∨ tinyScenario.advertiseLen = true)) :=
  probe_testserver rfl rfl (fun _ hh => absurd hh List.not_mem_nil) (servedBy_serverNet rfl)
    (by decide)

end Probing

/-! ### Downloads -/

/-- A response comes from the server, in some scenario with the content of the seed. -/
def FromServer (untilDate : Name → Option Nanos) (seed : UInt64) : DriveEvent → Prop
  | .worker _ (.respond (some r)) => ∃ st sc range st' a body,
      serve st sc range = (st', some a) ∧ sc.seed = seed ∧ sc.size ≤ u64Max ∧
      body <+: a.body.bytes ∧ r = a.response untilDate body
  | _ => True

section Download

variable {untilDate : Name → Option Nanos} {seed : UInt64}

theorem FromServer.honest {e : DriveEvent} (h : FromServer untilDate seed e) :
    e.Honest (content seed) := by
  cases e with
  | worker i we =>
    cases we with
    | respond r =>
      cases r with
      | none => trivial
      | some r =>
        obtain ⟨st, sc, range, st', a, body, hserve, rfl, hsize, hbody, rfl⟩ := h
        exact honest_response hserve hsize hbody
    | _ => trivial
  | _ => trivial

variable {settings : Settings} {req : DownloadRequest} {available : ℕ}
  {p : Prepared} {now : Nanos} {d : Drive} {env : Env} {inbox : List Queued}
  {r : Except WriterError RangeSet × WriterState} {fin : Finale} {file : File}

end Download

end Testserver

end SwiftLoad
