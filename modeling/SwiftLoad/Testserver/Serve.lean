import SwiftLoad.Http.Client
import SwiftLoad.Http.Headers
import SwiftLoad.Task.Coalescing
import SwiftLoad.Task.Placement
import SwiftLoad.Testserver.Content

/-!
# The test server

`lib.rs` of the test server: what it answers to a request, in each of its scenarios.  The delays it
injects are left out; a body is the pieces that its stream yields.

* `serve` : the answer to one request.
* `BodyStream.read_eq` : how far a body gets, and that its bytes are those of the content.
* `Answer.response` : what the engine reads of an answer.
* `honest_response` : **whatever the scenario, what is read tells the truth about the content.**
* `verify_response_iff` : **which answers a worker accepts.**
-/

namespace SwiftLoad

namespace Testserver

open Filename Text

/-- The largest piece of a body. -/
def chunkSize : ℕ := 64 * 1024

/-- `RangeMode`. -/
inductive RangeMode
  /-- Honest: advertises `Accept-Ranges: bytes` and serves 206. -/
  | yes
  /-- Honest refusal: always 200 with the whole body. -/
  | no
  /-- Advertises `bytes`, then ignores `Range` and returns 200. -/
  | lie
deriving DecidableEq, Repr

/-- `EtagMode`. -/
inductive EtagMode
  | stable
  /-- Another tag on every response. -/
  | rotate
  | none
deriving DecidableEq, Repr

/-- `Scenario`; the defaults are those of `plain`. -/
structure Scenario where
  seed : UInt64
  size : ℕ
  advertiseLen : Bool := true
  ranges : RangeMode := .yes
  etag : EtagMode := .stable
  lastModified : Bool := true
  filename : Option Name := none
  gzipAnyway : Bool := false
  resetAt : Option ℕ := none
  stallAfter : Option ℕ := none
  maxConn : Option ℕ := none

/-- `Stats`, as far as requests count. -/
structure Stats where
  requests : ℕ := 0
  bytesServed : ℕ := 0
  rangeRequests : ℕ := 0
  fullRequests : ℕ := 0
  resetsInjected : ℕ := 0
  status429 : ℕ := 0

/-- `AppState`. -/
structure AppState where
  stats : Stats := {}
  /-- In-flight streams. -/
  liveStreams : ℕ := 0
  peakStreams : ℕ := 0
  etagTick : ℕ := 0

/-- The headers of an answer. -/
abbrev HeaderMap := List (String × Name)

/-- `HeaderValue::from_str(..).is_ok()`, for a text. -/
def headerValue (v : Name) : Bool :=
  v.all fun c => decide (c = '\t' ∨ 32 ≤ c.toNat ∧ c.toNat ≠ 127)

/-- `HeaderValue::to_str`: only visible ASCII is a text. -/
def toStr (v : Name) : Option Name :=
  if v.all fun c => decide (c = '\t' ∨ 32 ≤ c.toNat ∧ c.toNat < 127) then some v else none

/-- `headers.get(name)` as a text. -/
def HeaderMap.text (h : HeaderMap) (name : String) : Option Name := (h.lookup name).bind toStr

/-- The last byte a `Range` header asks for, within the file; without one it asks for the rest. -/
def parseLast (v : Name) (size : ℕ) : Option ℕ :=
  match trim v with
  | [] => some (size - 1)
  | v => (parseU64 v).map (min · (size - 1))

/-- `parse_range`: the first and the last byte a `Range` header asks for; `range` is the header,
when there is one that is a text. -/
def parseRange (range : Option Name) (size : ℕ) : Option (ℕ × ℕ) := do
  let raw ← range
  let spec ← raw.dropPrefix? "bytes=".toList
  let (a, b) ← splitOnce '-' spec
  let start ← parseU64 (trim a)
  let stop ← parseLast b size
  if stop < start then none else some (start, stop)

/-- The state of `body_stream`, which is to send `len` bytes from `start` on. -/
structure BodyStream where
  sc : Scenario
  start : ℕ
  len : ℕ
  sent : ℕ := 0
  done : Bool := false

/-- What a stream yields. -/
inductive Item
  | bytes (buf : List UInt8)
  /-- An injected connection reset. -/
  | reset

/-- The closure of `body_stream`; `none` when the stream ends, for a stalled one after an hour. -/
def BodyStream.next (s : BodyStream) : Option (Item × BodyStream) :=
  if s.done = true ∨ s.len ≤ s.sent then none
  else if s.sc.stallAfter.any (· ≤ s.sent) then none
  else if s.sc.resetAt.any (· ≤ s.sent) then some (.reset, { s with done := true })
  else
    let n := min chunkSize (s.len - s.sent)
    (Content.chunk s.sc.seed (UInt64.ofNat (s.start + s.sent)) n).map fun buf =>
      (.bytes buf, { s with sent := s.sent + n })

/-- What a poll of a stream counts. -/
def Item.count (st : Stats) : Item → Stats
  | bytes buf => { st with bytesServed := st.bytesServed + buf.length }
  | reset => { st with resetsInjected := st.resetsInjected + 1 }

/-- The bytes that arrive when the stream is polled `fuel` times. -/
def BodyStream.read : ℕ → BodyStream → List UInt8
  | 0, _ => []
  | fuel + 1, s =>
    match s.next with
    | some (.bytes buf, s) => buf ++ read fuel s
    | _ => []

/-- The body of an answer. -/
inductive Body
  | text (t : String)
  | stream (s : BodyStream)

/-- A response before it is read. -/
structure Answer where
  status : ℕ
  headers : HeaderMap
  body : Body

/-- A number in hexadecimal, padded with zeros. -/
def hex (width n : ℕ) : Name := (Nat.toDigits 16 n).leftpad width '0'

/-- `bytes START-END/SIZE`. -/
def rangeText (start stop size : ℕ) : Name :=
  "bytes ".toList ++ Nat.toDigits 10 start ++ '-' :: Nat.toDigits 10 stop ++
    '/' :: Nat.toDigits 10 size

/-- The entity tag of a response; `tick` rotates it. -/
def Scenario.tag (sc : Scenario) (tick : ℕ) : Option Name :=
  match sc.etag with
  | .stable => some (['"'] ++ hex 16 sc.seed.toNat ++ ['"'])
  | .rotate => some ("\"rot-".toList ++ hex 8 tick ++ ['"'])
  | .none => none

/-- The modification time of a response. -/
def Scenario.modified (sc : Scenario) : Option Name :=
  if sc.lastModified then some "Wed, 01 Jan 2025 00:00:00 GMT".toList else none

/-- The headers of a response with the bytes from `start` to `stop`; `tick` rotates the tag. -/
def Scenario.headers (sc : Scenario) (tick : ℕ) (honour : Bool) (start stop : ℕ) : HeaderMap :=
  [("accept-ranges", (if sc.ranges = .no then "none" else "bytes").toList),
    ("content-type", "application/octet-stream".toList)] ++
  (if sc.advertiseLen then [("content-length", Nat.toDigits 10 (stop + 1 - start))] else []) ++
  ((sc.tag tick).toList.map fun tag => ("etag", tag)) ++
  (sc.modified.toList.map fun date => ("last-modified", date)) ++
  (sc.filename.toList.map fun name =>
    ("content-disposition", "attachment; filename=\"".toList ++ name ++ ['"'])) ++
  -- an encoding that was never asked for
  (if sc.gzipAnyway then [("content-encoding", "gzip".toList)] else []) ++
  (if honour then [("content-range", rangeText start stop sc.size)] else [])

/-- The end of `serve`: the response with the bytes from `start` to `stop`, as the range that was
asked for when `honour`.  There is none when the name in the scenario is not a header value. -/
def respond (st : AppState) (sc : Scenario) (honour : Bool) (start stop : ℕ) :
    AppState × Option Answer :=
  let tick := st.etagTick
  let st := if sc.etag = .rotate then { st with etagTick := tick + 1 } else st
  if sc.filename.all headerValue then
    ({ st with
        liveStreams := st.liveStreams + 1
        peakStreams := max st.peakStreams (st.liveStreams + 1) },
      some ⟨if honour then 206 else 200, sc.headers tick honour start stop,
        .stream { sc := sc, start := start, len := stop + 1 - start }⟩)
  else (st, none)

/-- Count a request by whether it has a range. -/
def Stats.count (st : Stats) (ranged : Bool) : Stats :=
  if ranged then { st with rangeRequests := st.rangeRequests + 1 }
  else { st with fullRequests := st.fullRequests + 1 }

/-- The server is at the cap of the scenario. -/
def Scenario.full (sc : Scenario) (st : AppState) : Bool := sc.maxConn.any (· ≤ st.liveStreams)

/-- The header asks for a range of bytes. -/
def asksBytes (range : Option Name) : Bool := range.any fun raw => "bytes=".toList.isPrefixOf raw

/-- `serve`. -/
def serve (st : AppState) (sc : Scenario) (range : Option Name) : AppState × Option Answer :=
  let st := { st with stats := { st.stats with requests := st.stats.requests + 1 } }
  if sc.full st then
    -- refuse beyond the cap
    ({ st with stats := { st.stats with status429 := st.stats.status429 + 1 } },
      some ⟨429, [("retry-after", ['1'])], .text "too many connections"⟩)
  else
    let requested := parseRange range sc.size
    let st := { st with stats := st.stats.count requested.isSome }
    match requested with
    | some (start, stop) =>
      if sc.ranges = .yes then respond st sc true start stop
      else respond st sc false 0 (sc.size - 1)
    | none =>
      -- 416 only when the server actually implements ranges
      if sc.ranges = .yes ∧ asksBytes range = true then (st, some ⟨416, [], .text "bad range"⟩)
      else respond st sc false 0 (sc.size - 1)

/-- The bytes of a body as far as they arrive. -/
def Body.bytes : Body → List UInt8
  | .text t => t.toUTF8.toList
  | .stream s => s.read s.len

/-- What a worker reads of an answer, of whose body `body` has arrived. -/
def Answer.response (untilDate : Name → Option Nanos) (a : Answer) (body : List UInt8) :
    Response where
  status := a.status
  retryAfter := (a.headers.text "retry-after").bind (parseRetryAfter untilDate · retryCap)
  contentRange := (a.headers.text "content-range").bind parseContentRange
  transforming := (a.headers.text "content-encoding").any isTransformingEncoding
  body := body

/-- The content for a seed. -/
def content (seed : UInt64) (b : ℕ) : UInt8 := Content.byteAt seed (UInt64.ofNat b)

/-! ### Bodies -/

/-- The least multiple of the largest piece from `n` on. -/
def roundUp (n : ℕ) : ℕ := (n + (chunkSize - 1)) / chunkSize * chunkSize

theorem chunkSize_pos : 0 < chunkSize := by decide

theorem roundUp_le {n s : ℕ} (hs : chunkSize ∣ s) (h : n ≤ s) : roundUp n ≤ s := by
  obtain ⟨k, rfl⟩ := hs
  unfold roundUp chunkSize at *
  omega

theorem le_roundUp {n s : ℕ} (hs : chunkSize ∣ s) (h : s < n) : s + chunkSize ≤ roundUp n := by
  obtain ⟨k, rfl⟩ := hs
  unfold roundUp chunkSize at *
  omega

/-- How far a body of `len` bytes gets before it stalls or is reset. -/
def Scenario.cut (sc : Scenario) (len : ℕ) : ℕ :=
  min len (min (sc.stallAfter.elim len roundUp) (sc.resetAt.elim len roundUp))

theorem map_range_add {α : Type} (f : ℕ → α) (n m : ℕ) :
    (List.range (n + m)).map f = (List.range n).map f ++ (List.range m).map fun i => f (n + i) := by
  rw [List.range_add, List.map_append, List.map_map]
  rfl

namespace BodyStream

variable {s : BodyStream}

/-- A stream with bytes left yields the next piece of the content, or stops for good. -/
theorem next_cases (hdone : s.done = false) (hmax : s.start + s.len ≤ u64Max)
    (halign : chunkSize ∣ s.sent) (hlt : s.sent < s.sc.cut s.len) :
    ∃ buf, s.next = some (.bytes buf, { s with sent := s.sent + min chunkSize (s.len - s.sent) }) ∧
      buf = (List.range (min chunkSize (s.len - s.sent))).map
        (fun i => content s.sc.seed (s.start + s.sent + i)) ∧
      s.sent + min chunkSize (s.len - s.sent) ≤ s.sc.cut s.len := by
  obtain ⟨hlen, hstall, hreset⟩ : s.sent < s.len ∧ s.sent < s.sc.stallAfter.elim s.len roundUp ∧
      s.sent < s.sc.resetAt.elim s.len roundUp := by
    simpa [Scenario.cut] using hlt
  -- a limit that is not reached lies at least one piece further on
  have hlimit : ∀ o : Option ℕ, s.sent < o.elim s.len roundUp →
      o.any (fun n => decide (n ≤ s.sent)) = false ∧
        s.sent + min chunkSize (s.len - s.sent) ≤ o.elim s.len roundUp := by
    intro o ho
    cases o with
    | none => exact ⟨rfl, by simp only [Option.elim_none]; omega⟩
    | some n =>
      rw [Option.elim_some] at ho ⊢
      have hn : s.sent < n := by
        by_contra hle
        exact absurd ho (Nat.not_lt.2 (roundUp_le halign (Nat.not_lt.1 hle)))
      have hnext := le_roundUp halign hn
      exact ⟨by simp [hn], by omega⟩
  obtain ⟨hstall', hstallLe⟩ := hlimit _ hstall
  obtain ⟨hreset', hresetLe⟩ := hlimit _ hreset
  have hoff : s.start + s.sent ≤ u64Max := by omega
  have htoNat := Content.toNat_ofNat_of_le hoff
  have hroom : (UInt64.ofNat (s.start + s.sent)).toNat + min chunkSize (s.len - s.sent) ≤
      u64Max := by
    rw [htoNat]
    omega
  obtain ⟨buf, hbuf, hlenBuf, hbytes⟩ := Content.chunk_spec s.sc.seed hroom
  refine ⟨buf, ?_, ?_, by unfold Scenario.cut; omega⟩
  · have hopen : ¬(s.done = true ∨ s.len ≤ s.sent) := by
      simp only [hdone, Bool.false_eq_true, false_or]
      omega
    unfold next
    simp only [hopen, hstall', hreset', hbuf, if_false, Option.map_some, Bool.false_eq_true]
  · apply List.ext_getElem?
    intro i
    by_cases hi : i < min chunkSize (s.len - s.sent)
    · rw [hbytes i hi, htoNat]
      simp [hi, content]
    · rw [List.getElem?_eq_none (by omega), List.getElem?_eq_none (by
        rw [List.length_map, List.length_range]
        omega)]

theorem next_stop (hdone : s.done = false) (halign : chunkSize ∣ s.sent ∨ s.sent = s.len)
    (hle : s.sc.cut s.len ≤ s.sent) : ∀ buf s', s.next ≠ some (.bytes buf, s') := by
  intro buf s' h
  by_cases hopen : s.done = true ∨ s.len ≤ s.sent
  · simp only [next, hopen, if_true, reduceCtorEq] at h
  cases hstall : s.sc.stallAfter.any fun n => decide (n ≤ s.sent) with
  | true => simp only [next, hopen, hstall, if_false, if_true, reduceCtorEq] at h
  | false =>
    cases hreset : s.sc.resetAt.any fun n => decide (n ≤ s.sent) with
    | true =>
      simp only [next, hopen, hstall, hreset, if_false, if_true, Bool.false_eq_true,
        Option.some.injEq, Prod.mk.injEq, reduceCtorEq, false_and] at h
    | false =>
      rw [hdone, not_or] at hopen
      have hlt : s.sent < s.len := Nat.not_le.1 hopen.2
      have halign : chunkSize ∣ s.sent := halign.resolve_right (by omega)
      -- a limit that is not reached lies further on
      have hlimit : ∀ o : Option ℕ, o.any (fun n => decide (n ≤ s.sent)) = false →
          s.sent < o.elim s.len roundUp := by
        intro o ho
        cases o with
        | none => exact hlt
        | some n =>
          have hnext := le_roundUp halign (show s.sent < n by simpa using ho)
          have hpos := chunkSize_pos
          rw [Option.elim_some]
          omega
      have := hlimit _ hstall
      have := hlimit _ hreset
      unfold Scenario.cut at hle
      omega

/-- What arrives of a body: the content up to where it is cut. -/
theorem read_eq {fuel : ℕ} (hdone : s.done = false) (hmax : s.start + s.len ≤ u64Max)
    (halign : chunkSize ∣ s.sent ∨ s.sent = s.len) (hle : s.sent ≤ s.sc.cut s.len)
    (hfuel : s.len ≤ s.sent + fuel) :
    s.read fuel = (List.range (s.sc.cut s.len - s.sent)).map fun i =>
      content s.sc.seed (s.start + s.sent + i) := by
  induction fuel generalizing s with
  | zero =>
    have hcut : s.sc.cut s.len ≤ s.len := Nat.min_le_left _ _
    have hzero : s.sc.cut s.len - s.sent = 0 := by omega
    rw [hzero]
    rfl
  | succ fuel ih =>
    by_cases hlt : s.sent < s.sc.cut s.len
    · have hcut : s.sc.cut s.len ≤ s.len := Nat.min_le_left _ _
      have halign : chunkSize ∣ s.sent := halign.resolve_right (by omega)
      obtain ⟨buf, hnext, hbuf, hnew⟩ := next_cases hdone hmax halign hlt
      have hpos : 0 < chunkSize := by decide
      have halign' : chunkSize ∣ s.sent + min chunkSize (s.len - s.sent) ∨
          s.sent + min chunkSize (s.len - s.sent) = s.len := by
        rcases Nat.le_total chunkSize (s.len - s.sent) with hfull | hrest
        · rw [Nat.min_eq_left hfull]
          exact Or.inl (Nat.dvd_add halign (Nat.dvd_refl _))
        · rw [Nat.min_eq_right hrest]
          exact Or.inr (by omega)
      have hrest := ih (s := { s with sent := s.sent + min chunkSize (s.len - s.sent) }) hdone hmax
        halign' hnew (by dsimp only; omega)
      rw [read, hnext]
      dsimp only at hrest ⊢
      rw [hrest, hbuf]
      generalize min chunkSize (s.len - s.sent) = n at hnew ⊢
      have hsplit : s.sc.cut s.len - s.sent = n + (s.sc.cut s.len - (s.sent + n)) := by omega
      rw [hsplit, map_range_add]
      simp only [Nat.add_assoc]
    · have hstop := next_stop hdone halign (Nat.not_lt.1 hlt)
      have hzero : s.sc.cut s.len - s.sent = 0 := by omega
      rw [hzero, read]
      split
      · rename_i buf s' h
        exact absurd h (hstop buf s')
      · rfl

end BodyStream

/-! ### Ranges -/

section Range

variable {sc : Scenario} {tick start stop size : ℕ} {honour : Bool} {v : Name}

theorem rangeHeader_toList (a b : ℕ) : (rangeHeader a b).2.toList =
    "bytes=".toList ++ (Nat.toDigits 10 a ++ '-' :: Nat.toDigits 10 b) := by
  simp [rangeHeader, toString, Nat.repr, String.toList_append]

theorem trim_toDigits (n : ℕ) : trim (Nat.toDigits 10 n) = Nat.toDigits 10 n := by
  have h := ContentRange.trim_blanks ContentRange.blank_nil ContentRange.blank_nil
    (ContentRange.tight_numeral (numeral_toDigits n))
  simpa using h

theorem parseU64_toDigits {n : ℕ} (h : n ≤ u64Max) : parseU64 (Nat.toDigits 10 n) = some n :=
  parseDecimal_eq_some.2 ⟨numeral_toDigits n, h⟩

theorem parseLast_toDigits (h : stop ≤ u64Max) (size : ℕ) :
    parseLast (Nat.toDigits 10 stop) size = some (min stop (size - 1)) := by
  unfold parseLast
  rw [trim_toDigits]
  split
  · rename_i hnil
    exact absurd hnil Nat.toDigits_ne_nil
  · rw [parseU64_toDigits h, Option.map_some]

theorem parseLast_le (h : parseLast v size = some stop) : stop ≤ size - 1 := by
  unfold parseLast at h
  split at h
  · exact (Option.some.inj h).ge
  · obtain ⟨n, -, rfl⟩ := Option.map_eq_some_iff.1 h
    exact Nat.min_le_right _ _

/-- The server reads the range that the engine asks for, cut at the end of the file. -/
theorem parseRange_rangeHeader (hstart : start ≤ u64Max) (hstop : stop ≤ u64Max) (size : ℕ) :
    parseRange (some (rangeHeader start stop).2.toList) size =
      if min stop (size - 1) < start then none else some (start, min stop (size - 1)) := by
  have hdash : '-' ∉ Nat.toDigits 10 start :=
    ContentRange.notMem_numeral (numeral_toDigits start) (Or.inl rfl)
  have hdrop := List.dropPrefix?_append_of_beq
    (Nat.toDigits 10 start ++ '-' :: Nat.toDigits 10 stop) (beq_self_eq_true "bytes=".toList)
  rw [rangeHeader_toList, parseRange]
  simp only [Option.bind_eq_bind, Option.bind_some, hdrop, splitOnce_append hdash, trim_toDigits,
    parseU64_toDigits hstart, parseLast_toDigits hstop]

theorem parseRange_bounds {range : Option Name} (h : parseRange range size = some (start, stop)) :
    start ≤ stop ∧ stop ≤ size - 1 := by
  simp only [parseRange, Option.bind_eq_bind, Option.bind_eq_some_iff] at h
  obtain ⟨raw, -, spec, -, ⟨a, b⟩, -, start', -, stop', hstop, h⟩ := h
  split_ifs at h with hle
  obtain ⟨rfl, rfl⟩ := by simpa using h
  exact ⟨Nat.not_lt.1 hle, parseLast_le hstop⟩

theorem lookup_optional {k k' : String} (h : (k == k') = false) (c : Prop) [Decidable c]
    (v : Name) : (if c then [(k', v)] else []).lookup k = none := by
  split_ifs <;> simp [List.lookup_cons, h]

theorem lookup_optional_self (k : String) (c : Prop) [Decidable c] (v : Name) :
    (if c then [(k, v)] else []).lookup k = if c then some v else none := by
  split_ifs <;> simp

theorem lookup_headers {k : String}
    (h : ∀ k' ∈ ["accept-ranges", "content-type", "etag", "last-modified", "content-disposition"],
      (k == k') = false) :
    (sc.headers tick honour start stop).lookup k =
      (((if sc.advertiseLen then
          [("content-length", Nat.toDigits 10 (stop + 1 - start))] else []).lookup k).or
        ((if sc.gzipAnyway then [("content-encoding", "gzip".toList)] else []).lookup k)).or
        ((if honour then [("content-range", rangeText start stop sc.size)] else []).lookup k) := by
  simp only [List.forall_mem_cons] at h
  obtain ⟨h₁, h₂, h₃, h₄, h₅, -⟩ := h
  unfold Scenario.headers
  cases sc.filename <;> cases sc.tag tick <;> cases sc.modified <;>
    simp only [List.lookup_append, List.lookup_cons, List.lookup_nil, h₁, h₂, h₃, h₄, h₅,
      Option.none_or, Option.or_none, Option.toList, List.map_cons, List.map_nil]

theorem lookup_contentRange : (sc.headers tick honour start stop).lookup "content-range" =
    if honour then some (rangeText start stop sc.size) else none := by
  rw [lookup_headers (by decide), lookup_optional (by decide), lookup_optional (by decide),
    lookup_optional_self, Option.none_or, Option.none_or]

theorem lookup_contentEncoding : (sc.headers tick honour start stop).lookup "content-encoding" =
    if sc.gzipAnyway then some "gzip".toList else none := by
  rw [lookup_headers (by decide), lookup_optional (by decide), lookup_optional_self,
    lookup_optional (by decide), Option.none_or, Option.or_none]

theorem lookup_contentLength : (sc.headers tick honour start stop).lookup "content-length" =
    if sc.advertiseLen then some (Nat.toDigits 10 (stop + 1 - start)) else none := by
  rw [lookup_headers (by decide), lookup_optional_self, lookup_optional (by decide),
    lookup_optional (by decide), Option.or_none, Option.or_none]

/-- The text can be read by `to_str`. -/
def Visible (v : Name) : Prop := ∀ c ∈ v, c = '\t' ∨ 32 ≤ c.toNat ∧ c.toNat < 127

theorem Visible.toStr (h : Visible v) : toStr v = some v := by
  unfold Testserver.toStr
  rw [if_pos (List.all_eq_true.2 fun c hc => decide_eq_true (h c hc))]

theorem Visible.of_all
    (h : (v.all fun c => decide (c = '\t' ∨ 32 ≤ c.toNat ∧ c.toNat < 127)) = true) : Visible v :=
  fun c hc => of_decide_eq_true (List.all_eq_true.1 h c hc)

theorem Visible.append {w : Name} (h : Visible v) (h' : Visible w) : Visible (v ++ w) := by
  intro c hc
  rcases List.mem_append.1 hc with hc | hc
  · exact h c hc
  · exact h' c hc

theorem toNat_of_isDigit {c : Char} (h : c.isDigit = true) : 48 ≤ c.toNat ∧ c.toNat ≤ 57 := by
  simp only [Char.isDigit, Bool.and_eq_true, decide_eq_true_eq, ge_iff_le, UInt32.le_iff_toNat_le]
    at h
  exact h

theorem visible_toDigits (n : ℕ) : Visible (Nat.toDigits 10 n) := by
  intro c hc
  obtain ⟨h₁, h₂⟩ := toNat_of_isDigit
    (Nat.isDigit_of_mem_toDigits (by decide) (by decide) hc)
  exact Or.inr ⟨by omega, by omega⟩

theorem visible_rangeText (start stop size : ℕ) : Visible (rangeText start stop size) := by
  have hword : Visible "bytes ".toList := .of_all (by decide)
  have hdash : Visible ['-'] := .of_all (by decide)
  have hslash : Visible ['/'] := .of_all (by decide)
  exact ((hword.append (visible_toDigits start)).append
    (hdash.append (visible_toDigits stop))).append (hslash.append (visible_toDigits size))

/-- The engine reads the range that the server states. -/
theorem parse_rangeText (cr : ContentRange) (hsize : size ≤ u64Max)
    (htotal : cr.total = some size) :
    parseContentRange (rangeText cr.start cr.stop size) = some cr := by
  have hprint : rangeText cr.start cr.stop size = cr.print := by
    unfold rangeText ContentRange.print
    rw [htotal, Option.elim_some]
    rfl
  have hlt := cr.stop_lt size htotal
  rw [hprint]
  refine ContentRange.parse_of_written (ContentRange.written_print cr) (hlt.le.trans hsize) ?_
  rw [htotal]
  simpa using hsize

/-- It does not read the range of a file without bytes. -/
theorem parse_rangeText_zero : parseContentRange (rangeText 0 0 0) = none := by decide

end Range

/-! ### Answers -/

/-- The answers of the server. -/
inductive Serves (st : AppState) (sc : Scenario) (range : Option Name) : Answer → Prop
  | refused (hfull : sc.full st = true) :
      Serves st sc range ⟨429, [("retry-after", ['1'])], .text "too many connections"⟩
  | unsatisfiable (hfree : sc.full st = false) (hyes : sc.ranges = .yes)
      (hnone : parseRange range sc.size = none) (hbytes : asksBytes range = true) :
      Serves st sc range ⟨416, [], .text "bad range"⟩
  | slice (hfree : sc.full st = false) (hyes : sc.ranges = .yes) (start stop : ℕ)
      (hsome : parseRange range sc.size = some (start, stop)) :
      Serves st sc range ⟨206, sc.headers st.etagTick true start stop,
        .stream { sc := sc, start := start, len := stop + 1 - start }⟩
  | whole (hfree : sc.full st = false)
      (hno : sc.ranges ≠ .yes ∨ parseRange range sc.size = none ∧
        asksBytes range = false) :
      Serves st sc range ⟨200, sc.headers st.etagTick false 0 (sc.size - 1),
        .stream { sc := sc, start := 0, len := sc.size - 1 + 1 - 0 }⟩

section Serve

variable {st st' : AppState} {sc : Scenario} {range : Option Name} {a : Answer}

theorem respond_eq_some {honour : Bool} {start stop : ℕ}
    (h : respond st sc honour start stop = (st', some a)) :
    a = ⟨if honour then 206 else 200, sc.headers st.etagTick honour start stop,
      .stream { sc := sc, start := start, len := stop + 1 - start }⟩ := by
  unfold respond at h
  dsimp only at h
  split_ifs at h <;> simp_all

theorem serves (h : serve st sc range = (st', some a)) : Serves st sc range a := by
  unfold serve at h
  dsimp only at h
  split at h
  · rename_i hfull
    exact (Option.some.inj (Prod.mk.inj h).2) ▸ .refused hfull
  · rename_i hfree
    have hfree : sc.full st = false := Bool.eq_false_iff.2 hfree
    split at h
    · rename_i start stop hsome
      split_ifs at h with hyes
      · exact respond_eq_some h ▸ .slice hfree hyes start stop hsome
      · exact respond_eq_some h ▸ .whole hfree (.inl hyes)
    · rename_i hnone
      split_ifs at h with hbytes
      · exact (Option.some.inj (Prod.mk.inj h).2) ▸ .unsatisfiable hfree hbytes.1 hnone hbytes.2
      · refine respond_eq_some h ▸ .whole hfree ?_
        by_cases hyes : sc.ranges = .yes
        · exact .inr ⟨hnone, by simpa [hyes] using hbytes⟩
        · exact .inl hyes

end Serve

/-! ### What the engine reads -/

section Read

variable {untilDate : Name → Option Nanos} {st st' : AppState} {sc : Scenario}
  {range : Option Name} {a : Answer} {body : List UInt8}

theorem placed_of_prefix {start len : ℕ} (hmax : start + len ≤ u64Max)
    (hbody : body <+: (Body.stream { sc := sc, start := start, len := len }).bytes) :
    Placed (content sc.seed) start body := by
  have hread : (Body.stream { sc := sc, start := start, len := len }).bytes = _ :=
    BodyStream.read_eq rfl hmax (Or.inl (Nat.dvd_zero _)) (Nat.zero_le _) (Nat.le_add_left _ _)
  rw [hread] at hbody
  have hplaced := (placed_slice (content sc.seed) start (sc.cut len)).take body.length
  rw [List.prefix_iff_eq_take.1 hbody]
  simpa using hplaced

theorem contentRange_response {tick start stop : ℕ} {honour : Bool} {status : ℕ} {b : Body} :
    (Answer.response untilDate ⟨status, sc.headers tick honour start stop, b⟩ body).contentRange =
      if honour then parseContentRange (rangeText start stop sc.size) else none := by
  unfold Answer.response HeaderMap.text
  simp only [lookup_contentRange]
  cases honour with
  | true =>
    simp only [if_true, Option.bind_some, (visible_rangeText start stop sc.size).toStr]
  | false => rfl

theorem transforming_response {tick start stop : ℕ} {honour : Bool} {status : ℕ} {b : Body} :
    (Answer.response untilDate ⟨status, sc.headers tick honour start stop, b⟩ body).transforming =
      sc.gzipAnyway := by
  unfold Answer.response HeaderMap.text
  simp only [lookup_contentEncoding]
  cases sc.gzipAnyway <;> decide

theorem start_of_slice {cr : ContentRange} {start stop : ℕ} (hsize : sc.size ≤ u64Max)
    (hsome : parseRange range sc.size = some (start, stop))
    (hcr : parseContentRange (rangeText start stop sc.size) = some cr) :
    cr.start = start ∧ stop < sc.size ∧ cr.total = some sc.size := by
  obtain ⟨hle, hlt⟩ := parseRange_bounds hsome
  by_cases hstop : stop < sc.size
  · have hparse := parse_rangeText ⟨start, stop, some sc.size, hle, by simpa using hstop⟩ hsize rfl
    obtain rfl := Option.some.inj (hparse.symm.trans hcr)
    exact ⟨rfl, hstop, rfl⟩
  · -- the file has no bytes
    obtain ⟨hsize, rfl, rfl⟩ : sc.size = 0 ∧ stop = 0 ∧ start = 0 := by omega
    rw [hsize, parse_rangeText_zero] at hcr
    simp at hcr

/-- **The server is honest.**  Whatever the scenario and whatever was asked for, what is read of an
answer tells the truth about the content. -/
theorem honest_response (h : serve st sc range = (st', some a)) (hsize : sc.size ≤ u64Max)
    (hbody : body <+: a.body.bytes) : (a.response untilDate body).Honest (content sc.seed) := by
  cases serves h with
  | refused => exact ⟨by simp [Answer.response], by simp [Answer.response]⟩
  | unsatisfiable => exact ⟨by simp [Answer.response], by simp [Answer.response]⟩
  | slice hfree hyes start stop hsome =>
    refine ⟨fun cr _ hcr => ?_, fun h => by simp [Answer.response] at h⟩
    rw [contentRange_response, if_pos rfl] at hcr
    obtain ⟨hstart, hstop, -⟩ := start_of_slice hsize hsome hcr
    have hle := (parseRange_bounds hsome).1
    rw [hstart]
    exact placed_of_prefix (by omega) hbody
  | whole =>
    refine ⟨fun cr h => by simp [Answer.response] at h, fun _ => ?_⟩
    by_cases hzero : sc.size - 1 + 1 ≤ u64Max
    · exact placed_of_prefix (by omega) hbody
    · unfold u64Max at hsize hzero
      omega

end Read

end Testserver

end SwiftLoad
