import SwiftLoad.Http.Errors
import SwiftLoad.Task.Plan
import SwiftLoad.Task.Probe

/-!
# One worker: one TCP connection, streaming one claim at a time

`task/worker.rs`.  `run`, `fetch_claim` and `stream_once` are one control flow with points where
the worker waits or where other tasks may act in between; `WorkerPhase` names these points and
`Worker.step` is the code from one point to the next.  What the network does is in the events.

A step works on what the worker shares with the other tasks (`Shared`: the plan, the error count
and the messages sent to the writer); whether the download is cancelled and whether this worker is
asked to retire are read from outside.

`Worker.Stepped` lists the outcomes of a step (`Worker.stepped`), `Worker.Effect` what a step can do
to the plan and to the messages (`Worker.effect_of_step`), and `WorkerCtx.verify_eq_ok` says what a
verified response is.
-/

namespace SwiftLoad

/-- Why a worker stopped. -/
inductive WorkerExit
  /-- No work left to claim. -/
  | exhausted
  /-- Asked to stand down by the governor. -/
  | retired
  | cancelled
  /-- Unrecoverable for the whole download. -/
  | failed (error : ErrorClass)
deriving DecidableEq, Repr

/-- The part of `WorkerCtx` that never changes. -/
structure WorkerCtx where
  rangeSupport : RangeSupport
  total : Option ℕ
  /-- `settings.max_retries_per_segment`. -/
  maxRetries : ℕ
deriving DecidableEq, Repr

/-- Requests carry a `Range` header only when ranges are known to work. -/
def WorkerCtx.useRange (ctx : WorkerCtx) : Bool := decide (ctx.rangeSupport = .supported)

/-- Where a worker stands.  `slot` is the id of the claim it holds, `attempt` counts the retries of
the claim, `rest` is the part of the body that has not been read. -/
inductive WorkerPhase
  /-- `run` has not built its client. -/
  | starting
  /-- The head of the loop of `run`. -/
  | top
  /-- About to ask the plan for work. -/
  | asking
  /-- The head of the loop of `fetch_claim`. -/
  | fetching (slot attempt : ℕ)
  /-- The request is out: `[start, stop)` is what the claim covered. -/
  | connecting (slot attempt start stop : ℕ)
  /-- The head of the loop over the body. -/
  | streaming (slot attempt : ℕ) (rest : List UInt8)
  /-- Waiting for a chunk. -/
  | reading (slot attempt : ℕ) (rest : List UInt8)
  /-- `take` bytes went to the writer, the cursor has not moved yet; `satisfied` when the chunk was
  longer than that. -/
  | handing (slot attempt take : ℕ) (rest : List UInt8) (satisfied : Bool)
  /-- Backing off before a retry. -/
  | waiting (slot attempt : ℕ)
  /-- Done with the claim; `exit` when the worker is to stop. -/
  | releasing (slot : ℕ) (exit : Option WorkerExit)
  | exited (exit : WorkerExit)
  /-- The driver has taken notice of the exit. -/
  | joined
deriving DecidableEq, Repr

namespace WorkerPhase

/-- The claim a worker holds. -/
def slot? : WorkerPhase → Option ℕ
  | fetching id _ | connecting id _ _ _ | streaming id _ _ | reading id _ _ | handing id _ _ _ _
  | waiting id _ | releasing id _ => some id
  | _ => none

/-- The chunk that was handed to the writer before the cursor moved. -/
def inFlight? : WorkerPhase → Option (ℕ × ℕ)
  | handing id _ take _ _ => some (id, take)
  | _ => none

/-- The worker's task is running. -/
def running : WorkerPhase → Bool
  | exited _ | joined => false
  | _ => true

end WorkerPhase

/-- A worker with its metrics. -/
structure Worker where
  phase : WorkerPhase
  bytes : ℕ
  requests : ℕ
  retries : ℕ
deriving DecidableEq, Repr

/-- A worker that was just spawned. -/
def Worker.new : Worker := ⟨.starting, 0, 0, 0⟩

/-- What a worker shares with the other tasks. -/
structure Shared where
  plan : Plan
  /-- `ctx.errors`. -/
  errors : ℕ
  /-- The data messages sent to the writer, in order. -/
  sent : List (ℕ × List UInt8)
deriving DecidableEq, Repr

/-- The outcome of waiting for a chunk. -/
inductive Poll
  /-- The idle timeout. -/
  | timeout
  /-- A transport error. -/
  | broken
  /-- A clean end of the body. -/
  | ended
  /-- The next `n` bytes; `writerGone` when the writer does not take them. -/
  | chunk (n : ℕ) (writerGone : Bool)
deriving DecidableEq, Repr

/-- What can happen to a worker. -/
inductive WorkerEvent
  /-- `client::build`. -/
  | build (ok : Bool)
  /-- The checks at the head of the loop of `run`. -/
  | check
  | request
  /-- The checks at the head of the loop of `fetch_claim`, then the request. -/
  | connect
  /-- The response to the request, or a transport error. -/
  | respond (r : Option Response)
  /-- The check at the head of the loop over the body. -/
  | proceed
  | poll (p : Poll)
  | advance
  /-- The backoff is over. -/
  | wake
  /-- The backoff is cut short by a cancellation. -/
  | interrupt
  | release
deriving DecidableEq

/-- The server states another size than the probe did. -/
def ContentRange.sizeChanged (cr : ContentRange) (expected : Option ℕ) : Bool :=
  match cr.total, expected with
  | some serverTotal, some expected => decide (serverTotal ≠ expected)
  | _, _ => false

namespace WorkerCtx

variable (ctx : WorkerCtx)

/-- Verification before a single byte is written: the body that will be written from `start` on, or
why there is none. -/
def verify (start : ℕ) : Option Response → Except ErrorClass (List UInt8)
  | none => .error .transientNetwork
  | some r =>
    if r.success = false then .error (classifyStatus r.status r.retryAfter true)
    else if ctx.useRange = true ∧ r.status ≠ 206 then
      .error (if start = 0 then .rangeUnsupported else .rangeLied)
    else if ctx.useRange = true ∧ r.contentRange.all (fun cr => decide (cr.start ≠ start)) then
      -- no parseable `Content-Range`, or a different part of the file than we asked for
      .error .rangeLied
    else if ctx.useRange = true ∧ r.contentRange.any (·.sizeChanged ctx.total) then
      .error .resourceChanged
    else if r.transforming then .error .rangeUnsupported
    else .ok r.body

end WorkerCtx

namespace Worker

/-- `fetch_claim` after an error of `stream_once`: retry, or hand the whole download the verdict. -/
def fail (ctx : WorkerCtx) (id attempt : ℕ) (error : ErrorClass) (sh : Shared) (w : Worker) :
    Shared × Worker :=
  ({ sh with errors := sh.errors + 1 },
    if error.isRetryable = false ∨ ctx.maxRetries ≤ attempt then
      { w with phase := .releasing id (some (.failed error)) }
    else { w with phase := .waiting id (attempt + 1), retries := w.retries + 1 })

/-- `stream_once` after the body: a body that ended early is a truncated response. -/
def endBody (ctx : WorkerCtx) (retire : Bool) (c : ClaimSlot) (attempt : ℕ) (sh : Shared)
    (w : Worker) : Shared × Worker :=
  if ctx.useRange = true ∧ c.cursor < c.stop ∧ retire = false then
    w.fail ctx c.id attempt .transientNetwork sh
  else (sh, { w with phase := .releasing c.id none })

/-- `stream_once` with a chunk: hand to the writer what lies inside the claim. -/
def takeChunk (ctx : WorkerCtx) (retire : Bool) (c : ClaimSlot) (attempt : ℕ) (rest : List UInt8)
    (n : ℕ) (writerGone : Bool) (sh : Shared) (w : Worker) : Shared × Worker :=
  if c.stop ≤ c.cursor then
    -- the claim was shrunk by a steal while streaming
    w.endBody ctx retire c attempt sh
  else if writerGone then w.fail ctx c.id attempt .localFatal sh
  else
    -- never write past the claim, even if the server sends more than asked for
    let take := min (c.stop - c.cursor) n
    ({ sh with sent := sh.sent ++ [(c.cursor, rest.take take)] },
      { w with phase := .handing c.id attempt take (rest.drop n) (decide (take < n)) })

/-- `run`, `fetch_claim` and `stream_once` from one point to the next. -/
def step (ctx : WorkerCtx) (cancelled retire : Bool) (sh : Shared) (w : Worker) :
    WorkerEvent → Option (Shared × Worker)
  | .build ok =>
    match w.phase with
    | .starting =>
      some (sh, { w with phase := if ok then .top else .exited (.failed .fatal) })
    | _ => none
  | .check =>
    match w.phase with
    | .top =>
      some (sh, { w with phase :=
        if cancelled then .exited .cancelled else if retire then .exited .retired else .asking })
    | _ => none
  | .request =>
    match w.phase with
    | .asking =>
      match sh.plan.request with
      | (plan, .claim c) => some ({ sh with plan := plan }, { w with phase := .fetching c.id 0 })
      | (plan, .exhausted) =>
        some ({ sh with plan := plan }, { w with phase := .exited .exhausted })
    | _ => none
  | .connect =>
    match w.phase with
    | .fetching id attempt =>
      (sh.plan.slot? id).map fun c =>
        if c.isDone then (sh, { w with phase := .releasing id none })
        else if cancelled then (sh, { w with phase := .releasing id (some .cancelled) })
        else (sh, { w with
          phase := .connecting id attempt c.cursor c.stop
          requests := w.requests + 1 })
    | _ => none
  | .respond r =>
    match w.phase with
    | .connecting id attempt start _ =>
      match ctx.verify start r with
      | .ok body => some (sh, { w with phase := .streaming id attempt body })
      | .error error => some (w.fail ctx id attempt error sh)
    | _ => none
  | .proceed =>
    match w.phase with
    | .streaming id attempt rest =>
      if cancelled then some (w.fail ctx id attempt .transientNetwork sh)
      else some (sh, { w with phase := .reading id attempt rest })
    | _ => none
  | .poll p =>
    match w.phase with
    | .reading id attempt rest =>
      match p with
      | .timeout | .broken => some (w.fail ctx id attempt .transientNetwork sh)
      | .ended => (sh.plan.slot? id).map fun c => w.endBody ctx retire c attempt sh
      | .chunk n writerGone =>
        if n ≤ rest.length then
          (sh.plan.slot? id).map fun c => w.takeChunk ctx retire c attempt rest n writerGone sh
        else none
    | _ => none
  | .advance =>
    match w.phase with
    | .handing id attempt take rest satisfied =>
      (sh.plan.slot? id).map fun c =>
        let sh := { sh with plan := sh.plan.modifySlot id (ClaimSlot.advance take) }
        let w := { w with bytes := w.bytes + take }
        if satisfied then w.endBody ctx retire (c.advance take) attempt sh
        else (sh, { w with phase := .streaming id attempt rest })
    | _ => none
  | .wake =>
    match w.phase with
    | .waiting id attempt => some (sh, { w with phase := .fetching id attempt })
    | _ => none
  | .interrupt =>
    match w.phase with
    | .waiting id _ =>
      if cancelled then some (sh, { w with phase := .releasing id (some .cancelled) }) else none
    | _ => none
  | .release =>
    match w.phase with
    | .releasing id exit =>
      some ({ sh with plan := sh.plan.release id },
        { w with phase := exit.elim .top WorkerPhase.exited })
    | _ => none

end Worker

/-! ### Verified responses -/

theorem ContentRange.sizeChanged_eq_false {cr : ContentRange} {expected : Option ℕ} :
    cr.sizeChanged expected = false ↔ ∀ n ∈ cr.total, ∀ t ∈ expected, n = t := by
  unfold sizeChanged
  cases cr.total <;> cases expected <;> simp

/-- What the checks of a worker accept. -/
theorem WorkerCtx.verify_eq_ok {ctx : WorkerCtx} {start : ℕ} {r : Option Response}
    {body : List UInt8} : ctx.verify start r = .ok body ↔
      ∃ resp, r = some resp ∧ body = resp.body ∧ resp.success = true ∧ resp.transforming = false ∧
        (ctx.useRange = true → resp.status = 206 ∧
          ∃ cr, resp.contentRange = some cr ∧ cr.start = start ∧
            cr.sizeChanged ctx.total = false) := by
  constructor
  · intro h
    cases r with
    | none => simp [verify] at h
    | some resp =>
      simp only [verify] at h
      split_ifs at h with h₁ h₂ h₃ h₄ h₅
      refine ⟨resp, rfl, (Except.ok.inj h).symm, by simpa using h₁, by simpa using h₅, ?_⟩
      intro hu
      simp only [hu, true_and] at h₂ h₃ h₄
      refine ⟨not_not.1 h₂, ?_⟩
      cases hcr : resp.contentRange with
      | none => simp [hcr] at h₃
      | some cr =>
        simp only [hcr, Option.all_some, Option.any_some, decide_eq_true_eq, not_not] at h₃ h₄
        exact ⟨cr, rfl, h₃, by simpa using h₄⟩
  · rintro ⟨resp, rfl, rfl, hsuccess, htrans, hrange⟩
    cases hu : ctx.useRange with
    | true =>
      obtain ⟨hstatus, cr, hcr, hstart, hsame⟩ := hrange hu
      simp [verify, hsuccess, htrans, hu, hstatus, hcr, hstart, hsame]
    | false => simp [verify, hsuccess, htrans, hu]

/-! ### The outcomes of a step -/

namespace Worker

/-- The outcomes of a step. -/
inductive Stepped (ctx : WorkerCtx) (cancelled retire : Bool) (sh : Shared) (w : Worker) :
    WorkerEvent → Shared × Worker → Prop
  | builds (ok : Bool) (hp : w.phase = .starting) :
      Stepped ctx cancelled retire sh w (.build ok)
        (sh, { w with phase := if ok then .top else .exited (.failed .fatal) })
  | checks (hp : w.phase = .top) :
      Stepped ctx cancelled retire sh w .check (sh, { w with
        phase := if cancelled then .exited .cancelled
          else if retire then .exited .retired else .asking })
  | claims (plan : Plan) (c : ClaimSlot) (hp : w.phase = .asking)
      (hreq : sh.plan.request = (plan, .claim c)) :
      Stepped ctx cancelled retire sh w .request
        ({ sh with plan := plan }, { w with phase := .fetching c.id 0 })
  | exhausts (hp : w.phase = .asking) (hreq : sh.plan.request = (sh.plan, .exhausted)) :
      Stepped ctx cancelled retire sh w .request (sh, { w with phase := .exited .exhausted })
  /-- The claim was finished before. -/
  | skips (c : ClaimSlot) (attempt : ℕ) (hp : w.phase = .fetching c.id attempt)
      (hc : sh.plan.slot? c.id = some c) (hdone : c.isDone = true) :
      Stepped ctx cancelled retire sh w .connect (sh, { w with phase := .releasing c.id none })
  | withdraws (c : ClaimSlot) (attempt : ℕ) (hp : w.phase = .fetching c.id attempt)
      (hc : sh.plan.slot? c.id = some c) (hdone : c.isDone = false)
      (hcancelled : cancelled = true) :
      Stepped ctx cancelled retire sh w .connect
        (sh, { w with phase := .releasing c.id (some .cancelled) })
  | connects (c : ClaimSlot) (attempt : ℕ) (hp : w.phase = .fetching c.id attempt)
      (hc : sh.plan.slot? c.id = some c) (hdone : c.isDone = false)
      (hcancelled : cancelled = false) :
      Stepped ctx cancelled retire sh w .connect (sh, { w with
        phase := .connecting c.id attempt c.cursor c.stop
        requests := w.requests + 1 })
  | accepts (r : Option Response) (id attempt start stop : ℕ) (body : List UInt8)
      (hp : w.phase = .connecting id attempt start stop) (hv : ctx.verify start r = .ok body) :
      Stepped ctx cancelled retire sh w (.respond r)
        (sh, { w with phase := .streaming id attempt body })
  | refuses (r : Option Response) (id attempt start stop : ℕ) (error : ErrorClass)
      (hp : w.phase = .connecting id attempt start stop) (hv : ctx.verify start r = .error error) :
      Stepped ctx cancelled retire sh w (.respond r) (w.fail ctx id attempt error sh)
  /-- Cancelled between two chunks. -/
  | stops (id attempt : ℕ) (rest : List UInt8) (hp : w.phase = .streaming id attempt rest)
      (hcancelled : cancelled = true) :
      Stepped ctx cancelled retire sh w .proceed (w.fail ctx id attempt .transientNetwork sh)
  | reads (id attempt : ℕ) (rest : List UInt8) (hp : w.phase = .streaming id attempt rest)
      (hcancelled : cancelled = false) :
      Stepped ctx cancelled retire sh w .proceed
        (sh, { w with phase := .reading id attempt rest })
  | breaks (p : Poll) (id attempt : ℕ) (rest : List UInt8) (hp : w.phase = .reading id attempt rest)
      (hpoll : p = .timeout ∨ p = .broken) :
      Stepped ctx cancelled retire sh w (.poll p) (w.fail ctx id attempt .transientNetwork sh)
  | ends (c : ClaimSlot) (attempt : ℕ) (rest : List UInt8)
      (hp : w.phase = .reading c.id attempt rest) (hc : sh.plan.slot? c.id = some c) :
      Stepped ctx cancelled retire sh w (.poll .ended) (w.endBody ctx retire c attempt sh)
  /-- A chunk for a claim that a steal has shrunk to nothing. -/
  | shrunk (c : ClaimSlot) (attempt : ℕ) (rest : List UInt8) (n : ℕ) (writerGone : Bool)
      (hp : w.phase = .reading c.id attempt rest) (hc : sh.plan.slot? c.id = some c)
      (hle : c.stop ≤ c.cursor) :
      Stepped ctx cancelled retire sh w (.poll (.chunk n writerGone))
        (w.endBody ctx retire c attempt sh)
  | abandoned (c : ClaimSlot) (attempt : ℕ) (rest : List UInt8) (n : ℕ)
      (hp : w.phase = .reading c.id attempt rest) (hc : sh.plan.slot? c.id = some c)
      (hlt : c.cursor < c.stop) :
      Stepped ctx cancelled retire sh w (.poll (.chunk n true))
        (w.fail ctx c.id attempt .localFatal sh)
  | hands (c : ClaimSlot) (attempt : ℕ) (rest : List UInt8) (n : ℕ)
      (hp : w.phase = .reading c.id attempt rest) (hc : sh.plan.slot? c.id = some c)
      (hn : n ≤ rest.length) (hlt : c.cursor < c.stop) :
      Stepped ctx cancelled retire sh w (.poll (.chunk n false))
        ({ sh with sent := sh.sent ++ [(c.cursor, rest.take (min (c.stop - c.cursor) n))] },
          { w with
            phase := .handing c.id attempt (min (c.stop - c.cursor) n) (rest.drop n)
              (decide (min (c.stop - c.cursor) n < n)) })
  | advances (c : ClaimSlot) (attempt take : ℕ) (rest : List UInt8)
      (hp : w.phase = .handing c.id attempt take rest false) (hc : sh.plan.slot? c.id = some c) :
      Stepped ctx cancelled retire sh w .advance
        ({ sh with plan := sh.plan.modifySlot c.id (ClaimSlot.advance take) },
          { w with bytes := w.bytes + take, phase := .streaming c.id attempt rest })
  /-- The chunk was longer than the claim. -/
  | satisfied (c : ClaimSlot) (attempt take : ℕ) (rest : List UInt8)
      (hp : w.phase = .handing c.id attempt take rest true) (hc : sh.plan.slot? c.id = some c) :
      Stepped ctx cancelled retire sh w .advance
        (({ w with bytes := w.bytes + take } : Worker).endBody ctx retire (c.advance take) attempt
          { sh with plan := sh.plan.modifySlot c.id (ClaimSlot.advance take) })
  | wakes (id attempt : ℕ) (hp : w.phase = .waiting id attempt) :
      Stepped ctx cancelled retire sh w .wake (sh, { w with phase := .fetching id attempt })
  | interrupts (id attempt : ℕ) (hp : w.phase = .waiting id attempt)
      (hcancelled : cancelled = true) :
      Stepped ctx cancelled retire sh w .interrupt
        (sh, { w with phase := .releasing id (some .cancelled) })
  | releases (id : ℕ) (exit : Option WorkerExit) (hp : w.phase = .releasing id exit) :
      Stepped ctx cancelled retire sh w .release
        ({ sh with plan := sh.plan.release id },
          { w with phase := exit.elim .top WorkerPhase.exited })

variable {ctx : WorkerCtx} {cancelled retire : Bool} {sh sh' : Shared} {w w' : Worker}
  {e : WorkerEvent} {r : Shared × Worker}

/-- **There are no other outcomes.** -/
theorem stepped (h : w.step ctx cancelled retire sh e = some r) :
    Stepped ctx cancelled retire sh w e r := by
  cases e with
  | build ok =>
    simp only [step] at h
    split at h
    · rename_i hp
      obtain rfl := Option.some.inj h
      exact .builds ok hp
    · cases h
  | check =>
    simp only [step] at h
    split at h
    · rename_i hp
      obtain rfl := Option.some.inj h
      exact .checks hp
    · cases h
  | request =>
    simp only [step] at h
    split at h
    · rename_i hp
      split at h
      · rename_i plan c hreq
        obtain rfl := Option.some.inj h
        exact .claims plan c hp hreq
      · rename_i plan hreq
        obtain rfl := Option.some.inj h
        obtain rfl := Plan.request_exhausted hreq
        exact .exhausts hp hreq
    · cases h
  | connect =>
    simp only [step] at h
    split at h
    · rename_i id attempt hp
      obtain ⟨c, hc, h⟩ := Option.map_eq_some_iff.1 h
      obtain ⟨-, rfl⟩ := Plan.mem_of_slot? hc
      split_ifs at h with hdone hcancelled <;> subst h
      · exact .skips c attempt hp hc hdone
      · exact .withdraws c attempt hp hc (by simpa using hdone) hcancelled
      · exact .connects c attempt hp hc (by simpa using hdone) (by simpa using hcancelled)
    · cases h
  | respond r =>
    simp only [step] at h
    split at h
    · rename_i id attempt start stop hp
      split at h
      · rename_i body hv
        obtain rfl := Option.some.inj h
        exact .accepts r id attempt start stop body hp hv
      · rename_i error hv
        obtain rfl := Option.some.inj h
        exact .refuses r id attempt start stop error hp hv
    · cases h
  | proceed =>
    simp only [step] at h
    split at h
    · rename_i id attempt rest hp
      split_ifs at h with hcancelled <;> obtain rfl := Option.some.inj h
      · exact .stops id attempt rest hp hcancelled
      · exact .reads id attempt rest hp (by simpa using hcancelled)
    · cases h
  | poll p =>
    simp only [step] at h
    split at h
    · rename_i id attempt rest hp
      cases p with
      | timeout =>
        obtain rfl := Option.some.inj h
        exact .breaks _ id attempt rest hp (.inl rfl)
      | broken =>
        obtain rfl := Option.some.inj h
        exact .breaks _ id attempt rest hp (.inr rfl)
      | ended =>
        obtain ⟨c, hc, rfl⟩ := Option.map_eq_some_iff.1 h
        obtain ⟨-, rfl⟩ := Plan.mem_of_slot? hc
        exact .ends c attempt rest hp hc
      | chunk n writerGone =>
        simp only at h
        split_ifs at h with hn
        obtain ⟨c, hc, rfl⟩ := Option.map_eq_some_iff.1 h
        obtain ⟨-, rfl⟩ := Plan.mem_of_slot? hc
        unfold takeChunk
        split_ifs with hle hgone
        · exact .shrunk c attempt rest n writerGone hp hc hle
        · rw [hgone]
          exact .abandoned c attempt rest n hp hc (Nat.not_le.1 hle)
        · rw [Bool.not_eq_true] at hgone
          rw [hgone]
          exact .hands c attempt rest n hp hc hn (Nat.not_le.1 hle)
    · cases h
  | advance =>
    simp only [step] at h
    split at h
    · rename_i id attempt take rest satisfied hp
      obtain ⟨c, hc, rfl⟩ := Option.map_eq_some_iff.1 h
      obtain ⟨-, rfl⟩ := Plan.mem_of_slot? hc
      cases satisfied with
      | false => exact .advances c attempt take rest hp hc
      | true => exact .satisfied c attempt take rest hp hc
    · cases h
  | wake =>
    simp only [step] at h
    split at h
    · rename_i id attempt hp
      obtain rfl := Option.some.inj h
      exact .wakes id attempt hp
    · cases h
  | interrupt =>
    simp only [step] at h
    split at h
    · rename_i id attempt hp
      split_ifs at h with hcancelled
      obtain rfl := Option.some.inj h
      exact .interrupts id attempt hp hcancelled
    · cases h
  | release =>
    simp only [step] at h
    split at h
    · rename_i id exit hp
      obtain rfl := Option.some.inj h
      exact .releases id exit hp
    · cases h

end Worker

/-! ### What a step does to the plan and the messages -/

namespace Worker

/-- The effect of a step of a worker on the plan, on the messages and on what the worker holds. -/
inductive Effect (sh : Shared) (w : Worker) (sh' : Shared) (w' : Worker) : Prop
  /-- Nothing moves. -/
  | still (hplan : sh'.plan = sh.plan) (hsent : sh'.sent = sh.sent)
      (hslot : w'.phase.slot? = w.phase.slot?) (hin : w.phase.inFlight? = none)
      (hin' : w'.phase.inFlight? = none)
  /-- The plan grants a claim. -/
  | claim (c : ClaimSlot) (hreq : sh.plan.request = (sh'.plan, .claim c))
      (hsent : sh'.sent = sh.sent) (hslot : w.phase.slot? = none)
      (hslot' : w'.phase.slot? = some c.id) (hin : w.phase.inFlight? = none)
      (hin' : w'.phase.inFlight? = none)
  /-- A chunk from the cursor on goes to the writer. -/
  | hand (c : ClaimSlot) (bytes : List UInt8) (hc : sh.plan.slot? c.id = some c)
      (hplan : sh'.plan = sh.plan) (hsent : sh'.sent = sh.sent ++ [(c.cursor, bytes)])
      (hle : bytes.length ≤ c.stop - c.cursor) (hslot : w.phase.slot? = some c.id)
      (hslot' : w'.phase.slot? = some c.id) (hin : w.phase.inFlight? = none)
      (hin' : w'.phase.inFlight? = some (c.id, bytes.length))
  /-- The cursor passes the chunk. -/
  | advance (id n : ℕ) (hplan : sh'.plan = sh.plan.modifySlot id (ClaimSlot.advance n))
      (hsent : sh'.sent = sh.sent) (hslot : w.phase.slot? = some id)
      (hslot' : w'.phase.slot? = some id) (hin : w.phase.inFlight? = some (id, n))
      (hin' : w'.phase.inFlight? = none)
  /-- The claim goes back. -/
  | release (id : ℕ) (hplan : sh'.plan = sh.plan.release id) (hsent : sh'.sent = sh.sent)
      (hslot : w.phase.slot? = some id) (hslot' : w'.phase.slot? = none)
      (hin : w.phase.inFlight? = none) (hin' : w'.phase.inFlight? = none)

variable {ctx : WorkerCtx} {cancelled retire : Bool} {sh sh' : Shared} {w w' : Worker}
  {e : WorkerEvent} {r : Shared × Worker}

/-- After an error the worker keeps its claim, to retry it or to give it back. -/
theorem fail_phase (ctx : WorkerCtx) (id attempt : ℕ) (error : ErrorClass) (sh : Shared)
    (w : Worker) :
    (w.fail ctx id attempt error sh).2.phase = .releasing id (some (.failed error)) ∨
      (w.fail ctx id attempt error sh).2.phase = .waiting id (attempt + 1) := by
  unfold fail
  dsimp only
  split_ifs
  · exact Or.inl rfl
  · exact Or.inr rfl

theorem endBody_cases (ctx : WorkerCtx) (retire : Bool) (c : ClaimSlot) (attempt : ℕ)
    (sh : Shared) (w : Worker) :
    (ctx.useRange = true ∧ c.cursor < c.stop ∧ retire = false ∧
      w.endBody ctx retire c attempt sh = w.fail ctx c.id attempt .transientNetwork sh) ∨
    ((ctx.useRange = true → c.cursor < c.stop → retire = true) ∧
      w.endBody ctx retire c attempt sh = (sh, { w with phase := .releasing c.id none })) := by
  unfold endBody
  split_ifs with h
  · exact Or.inl ⟨h.1, h.2.1, h.2.2, rfl⟩
  · refine Or.inr ⟨?_, rfl⟩
    intro hu hlt
    by_contra hr
    exact h ⟨hu, hlt, by simpa using hr⟩

/-- After an error the worker still holds its claim, and nothing else has changed. -/
theorem fail_still (ctx : WorkerCtx) (id attempt : ℕ) (error : ErrorClass) (sh : Shared)
    (w : Worker) :
    (w.fail ctx id attempt error sh).2.phase.slot? = some id ∧
      (w.fail ctx id attempt error sh).2.phase.inFlight? = none := by
  rcases fail_phase ctx id attempt error sh w with h | h <;> rw [h] <;> exact ⟨rfl, rfl⟩

/-- After the body the worker still holds its claim, and nothing else has changed. -/
theorem endBody_still (ctx : WorkerCtx) (retire : Bool) (c : ClaimSlot) (attempt : ℕ)
    (sh : Shared) (w : Worker) :
    (w.endBody ctx retire c attempt sh).1.plan = sh.plan ∧
      (w.endBody ctx retire c attempt sh).1.sent = sh.sent ∧
      (w.endBody ctx retire c attempt sh).2.phase.slot? = some c.id ∧
      (w.endBody ctx retire c attempt sh).2.phase.inFlight? = none := by
  rcases endBody_cases ctx retire c attempt sh w with ⟨-, -, -, h⟩ | ⟨-, h⟩ <;> rw [h]
  · exact ⟨rfl, rfl, fail_still ctx c.id attempt _ sh w⟩
  · exact ⟨rfl, rfl, rfl, rfl⟩

theorem effect_fail {id attempt : ℕ} {error : ErrorClass} {r : Shared × Worker}
    (hr : w.fail ctx id attempt error sh = r) (hslot : w.phase.slot? = some id)
    (hin : w.phase.inFlight? = none) : Effect sh w r.1 r.2 := by
  obtain ⟨h₁, h₂⟩ := fail_still ctx id attempt error sh w
  subst hr
  exact .still rfl rfl (h₁.trans hslot.symm) hin h₂

theorem effect_endBody {c : ClaimSlot} {attempt : ℕ} {r : Shared × Worker}
    (hr : w.endBody ctx retire c attempt sh = r) (hslot : w.phase.slot? = some c.id)
    (hin : w.phase.inFlight? = none) : Effect sh w r.1 r.2 := by
  obtain ⟨h₁, h₂, h₃, h₄⟩ := endBody_still ctx retire c attempt sh w
  subst hr
  exact .still h₁ h₂ (h₃.trans hslot.symm) hin h₄

theorem Stepped.effect (h : Stepped ctx cancelled retire sh w e r) : Effect sh w r.1 r.2 := by
  cases h with
  | builds ok hp => cases ok <;> exact .still rfl rfl (by rw [hp]; rfl) (by rw [hp]; rfl) rfl
  | checks hp =>
    cases cancelled <;> cases retire <;>
      exact .still rfl rfl (by rw [hp]; rfl) (by rw [hp]; rfl) rfl
  | claims plan c hp hreq =>
    exact .claim c hreq rfl (by rw [hp]; rfl) rfl (by rw [hp]; rfl) rfl
  | exhausts hp => exact .still rfl rfl (by rw [hp]; rfl) (by rw [hp]; rfl) rfl
  | skips c attempt hp => exact .still rfl rfl (by rw [hp]; rfl) (by rw [hp]; rfl) rfl
  | withdraws c attempt hp => exact .still rfl rfl (by rw [hp]; rfl) (by rw [hp]; rfl) rfl
  | connects c attempt hp => exact .still rfl rfl (by rw [hp]; rfl) (by rw [hp]; rfl) rfl
  | accepts _ id attempt start stop body hp =>
    exact .still rfl rfl (by rw [hp]; rfl) (by rw [hp]; rfl) rfl
  | refuses _ id attempt start stop error hp =>
    exact effect_fail rfl (by rw [hp]; rfl) (by rw [hp]; rfl)
  | stops id attempt rest hp => exact effect_fail rfl (by rw [hp]; rfl) (by rw [hp]; rfl)
  | reads id attempt rest hp => exact .still rfl rfl (by rw [hp]; rfl) (by rw [hp]; rfl) rfl
  | breaks _ id attempt rest hp => exact effect_fail rfl (by rw [hp]; rfl) (by rw [hp]; rfl)
  | ends c attempt rest hp => exact effect_endBody rfl (by rw [hp]; rfl) (by rw [hp]; rfl)
  | shrunk c attempt rest n _ hp => exact effect_endBody rfl (by rw [hp]; rfl) (by rw [hp]; rfl)
  | abandoned c attempt rest n hp => exact effect_fail rfl (by rw [hp]; rfl) (by rw [hp]; rfl)
  | hands c attempt rest n hp hc hn hlt =>
    have hlen : (rest.take (min (c.stop - c.cursor) n)).length = min (c.stop - c.cursor) n := by
      rw [List.length_take]
      omega
    exact .hand c _ hc rfl rfl (by omega) (by rw [hp]; rfl) rfl (by rw [hp]; rfl)
      (by rw [hlen]; rfl)
  | advances c attempt take rest hp =>
    exact .advance c.id take rfl rfl (by rw [hp]; rfl) rfl (by rw [hp]; rfl) rfl
  | satisfied c attempt take rest hp =>
    obtain ⟨h₁, h₂, h₃, h₄⟩ := endBody_still ctx retire (c.advance take) attempt
      { sh with plan := sh.plan.modifySlot c.id (ClaimSlot.advance take) }
      { w with bytes := w.bytes + take }
    exact .advance c.id take h₁ h₂ (by rw [hp]; rfl) h₃ (by rw [hp]; rfl) h₄
  | wakes id attempt hp => exact .still rfl rfl (by rw [hp]; rfl) (by rw [hp]; rfl) rfl
  | interrupts id attempt hp => exact .still rfl rfl (by rw [hp]; rfl) (by rw [hp]; rfl) rfl
  | releases id exit hp =>
    cases exit <;> exact .release id rfl rfl (by rw [hp]; rfl) rfl (by rw [hp]; rfl) rfl

/-- **The effect of a step**: nothing, or one of the four moves of the planner's workers. -/
theorem effect_of_step (h : w.step ctx cancelled retire sh e = some (sh', w')) :
    Effect sh w sh' w' := (stepped h).effect

theorem step_joined (h : w.phase = .joined) (e : WorkerEvent) :
    w.step ctx cancelled retire sh e = none := by
  cases e <;> simp only [step, h]

end Worker

end SwiftLoad
