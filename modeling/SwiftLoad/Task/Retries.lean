import SwiftLoad.Http.Headers
import SwiftLoad.Machine.Basic
import SwiftLoad.Task.Worker
import SwiftLoad.Util.Backoff

/-!
# How long a worker sleeps

`fetch_claim` of `task/worker.rs` waits before every retry: as long as the server says, or a delay
that is drawn from the window of the attempt.  Whatever the other tasks and the servers do, the
waits for one claim stay within a budget, and there are runs that use all of it.

* `sleepMachine` : a worker with the waits it asks for.
* `WithinBudget` : the waits so far, by the attempts so far.
* `retry_budget` : **the longest time that a worker sleeps for one claim.**
-/

namespace SwiftLoad

open Finset Ranges

/-- The backoff of `run`. -/
def WorkerCtx.backoff (ctx : WorkerCtx) : Backoff := { maxAttempts := ctx.maxRetries }

/-- The wait of `fetch_claim` after an error: the server's own figure when it gave one. -/
def retryWait (b : Backoff) (draw : Draw) (attempt : ℕ) : ErrorClass → Nanos
  | .rateLimited (some d) => d
  | _ => b.delayFor draw attempt

/-- The error that `stream_once` ends with at an event that makes it fail. -/
def Worker.errorAt (ctx : WorkerCtx) (w : Worker) (event : WorkerEvent) : ErrorClass :=
  match w.phase, event with
  | .connecting _ _ start _, .respond r =>
    match ctx.verify start r with
    | .error error => error
    | .ok _ => .transientNetwork
  | _, _ => .transientNetwork

/-- A worker with its sleep. -/
structure Sleeper where
  worker : Worker
  /-- The wait it has asked for. -/
  due : Nanos
  /-- How long it has slept for the claim it holds, or held last. -/
  slept : Nanos
deriving DecidableEq

/-- One step of a worker among other tasks, which may have done anything to what they share. -/
structure SleepEvent where
  cancelled : Bool
  retire : Bool
  shared : Shared
  event : WorkerEvent
  draw : Draw
  /-- How much of a wait is over when it is cut short. -/
  elapsed : Nanos

/-- `fetch_claim` asks for a wait when it is going to retry. -/
def Sleeper.next (ctx : WorkerCtx) (s : Sleeper) (e : SleepEvent) (w : Worker) : Sleeper where
  worker := w
  due :=
    match w.phase with
    | .waiting _ retries =>
      retryWait ctx.backoff e.draw (retries - 1) (s.worker.errorAt ctx e.event)
    | _ => 0
  slept :=
    match e.event with
    | .request => 0
    | .wake => s.slept + s.due
    | .interrupt => s.slept + min e.elapsed s.due
    | _ => s.slept

/-- A worker with the waits it asks for. -/
def sleepMachine (ctx : WorkerCtx) : Machine Sleeper SleepEvent where
  step s e :=
    (s.worker.step ctx e.cancelled e.retire e.shared e.event).map fun r => s.next ctx e r.2

/-- A worker that was just spawned. -/
def Sleeper.start : Sleeper := ⟨.new, 0, 0⟩

/-- Delays that servers ask for are at most `limit`. -/
def AsksAtMost (limit : Nanos) (_ : Sleeper) (e : SleepEvent) : Prop :=
  ∀ r, e.event = .respond (some r) → ∀ d ∈ r.retryAfter, d ≤ limit

/-- The delays in the responses were read from a header, as `stream_once` reads it. -/
def ReadsHeaders (_ : Sleeper) (e : SleepEvent) : Prop :=
  ∀ r, e.event = .respond (some r) → ∀ d ∈ r.retryAfter,
    ∃ untilDate v, parseRetryAfter untilDate v retryCap = some d

/-- No server asks for a delay. -/
def AsksNothing (_ : Sleeper) (e : SleepEvent) : Prop :=
  ∀ r, e.event = .respond (some r) → r.retryAfter = none

/-- The longest wait before a retry. -/
def longestWait (limit : Nanos) (attempt : ℕ) : Nanos :=
  max (min (millis 500 * 2 ^ attempt) (secs 30)) limit

/-- The longest waits of that many retries. -/
def budget (limit : Nanos) (retries : ℕ) : Nanos := ∑ i ∈ range retries, longestWait limit i

variable {ctx : WorkerCtx} {limit : Nanos} {s : Sleeper} {e : SleepEvent} {n : ℕ}

theorem budget_succ (limit : Nanos) (n : ℕ) :
    budget limit (n + 1) = budget limit n + longestWait limit n := sum_range_succ _ _

theorem budget_mono (limit : Nanos) {m : ℕ} (h : n ≤ m) : budget limit n ≤ budget limit m :=
  sum_le_sum_of_subset (range_subset_range.2 h)

theorem ceilingFor_backoff (ctx : WorkerCtx) (attempt : ℕ) :
    ctx.backoff.ceilingFor attempt = min (millis 500 * 2 ^ attempt) (secs 30) := by
  have hcap : ctx.backoff.cap ≤ durationMax := by
    change secs 30 ≤ durationMax
    decide
  rw [Backoff.ceilingFor_eq hcap]
  change min (millis 500 * min (2 ^ attempt) u32Max) (secs 30) = _
  -- the factor is cut only where the cap holds anyway
  rcases Nat.le_total (2 ^ attempt) u32Max with h | h
  · rw [Nat.min_eq_left h]
  · have hbase : secs 30 ≤ millis 500 * u32Max := by decide
    rw [Nat.min_eq_right h, Nat.min_eq_right hbase,
      Nat.min_eq_right (hbase.trans (Nat.mul_le_mul_left _ h))]

theorem retryWait_le {error : ErrorClass} (h : ∀ d, error = .rateLimited (some d) → d ≤ limit)
    (draw : Draw) (attempt : ℕ) :
    retryWait ctx.backoff draw attempt error ≤ longestWait limit attempt := by
  have hdelay : ctx.backoff.delayFor draw attempt ≤ longestWait limit attempt :=
    (Backoff.delayFor_le _ draw attempt).trans
      ((ceilingFor_backoff ctx attempt).le.trans (le_max_left _ _))
  unfold retryWait
  split
  · exact (h _ rfl).trans (le_max_right _ _)
  · exact hdelay

theorem parseRetryAfter_le {untilDate : Name → Option Nanos} {v : Name} {cap d : Nanos}
    (h : parseRetryAfter untilDate v cap = some d) : d ≤ cap := by
  unfold parseRetryAfter at h
  cases hnum : parseU64 (Filename.trim v) with
  | some n =>
    rw [hnum] at h
    exact Option.some.inj h ▸ min_le_right _ _
  | none =>
    rw [hnum] at h
    obtain ⟨t, -, rfl⟩ := Option.map_eq_some_iff.1 h
    exact min_le_right _ _

theorem AsksAtMost.of_reads (h : ReadsHeaders s e) : AsksAtMost retryCap s e := by
  intro r hr d hd
  obtain ⟨untilDate, v, hv⟩ := h r hr d hd
  exact parseRetryAfter_le hv

theorem AsksAtMost.of_nothing (h : AsksNothing s e) : AsksAtMost 0 s e := by
  intro r hr d hd
  rw [h r hr] at hd
  cases hd

theorem classifyStatus_limited {status : ℕ} {retryAfter : Option Nanos} {worked : Bool}
    {d : Nanos} (h : classifyStatus status retryAfter worked = .rateLimited (some d)) :
    retryAfter = some d := by
  unfold classifyStatus at h
  split_ifs at h
  · exact ErrorClass.rateLimited.inj h
  · exact ErrorClass.rateLimited.inj h

theorem verify_limited {start : ℕ} {r : Option Response} {d : Nanos}
    (h : ctx.verify start r = .error (.rateLimited (some d))) :
    ∃ resp, r = some resp ∧ resp.retryAfter = some d := by
  cases r with
  | none => simp [WorkerCtx.verify] at h
  | some resp =>
    simp only [WorkerCtx.verify] at h
    split_ifs at h with hstatus hrange hzero
    · exact ⟨resp, rfl, classifyStatus_limited (Except.error.inj h)⟩
    all_goals cases h

theorem errorAt_limited (h : AsksAtMost limit s e) (w : Worker) {d : Nanos}
    (herror : w.errorAt ctx e.event = .rateLimited (some d)) : d ≤ limit := by
  unfold Worker.errorAt at herror
  split at herror
  · rename_i id attempt start stop r hphase hevent
    cases hv : ctx.verify start r with
    | ok body =>
      rw [hv] at herror
      cases herror
    | error error =>
      rw [hv] at herror
      obtain rfl : error = .rateLimited (some d) := herror
      obtain ⟨resp, rfl, hresp⟩ := verify_limited hv
      exact h resp hevent d hresp
  · cases herror

/-! ### The budget -/

/-- How many retries of its claim a worker has used up, when that matters. -/
def WorkerPhase.retries? : WorkerPhase → Option ℕ
  | .fetching _ n | .connecting _ n _ _ | .streaming _ n _ | .reading _ n _ | .handing _ n _ _ _
  | .waiting _ n => some n
  | _ => none

/-- The waits so far, with the one that is asked for, are within the budget of the retries so far,
and these are not too many. -/
structure WithinBudget (ctx : WorkerCtx) (limit : Nanos) (s : Sleeper) : Prop where
  used : ∀ n ∈ s.worker.phase.retries?, n ≤ ctx.maxRetries ∧ s.slept + s.due ≤ budget limit n
  total : s.slept + s.due ≤ budget limit ctx.maxRetries

theorem withinBudget_start : WithinBudget ctx limit .start :=
  ⟨by simp [Sleeper.start, Worker.new, WorkerPhase.retries?], Nat.zero_le _⟩

/-- The event neither ends a wait nor brings a new claim. -/
def WorkerEvent.awake : WorkerEvent → Bool
  | .request | .wake | .interrupt => false
  | _ => true

/-- What a step does to the waits of a worker. -/
inductive Naps (ctx : WorkerCtx) (w : Worker) : WorkerEvent → Worker → Prop
  | other {event : WorkerEvent} {w' : Worker} (hevent : event.awake = true)
      (hawake : ∀ id n, w'.phase ≠ .waiting id n)
      (hused : ∀ n ∈ w'.phase.retries?, n ∈ w.phase.retries?) : Naps ctx w event w'
  | fails {event : WorkerEvent} {w' : Worker} {id attempt : ℕ} (hevent : event.awake = true)
      (hattempt : attempt ∈ w.phase.retries?) (hlt : attempt < ctx.maxRetries)
      (hp : w'.phase = .waiting id (attempt + 1)) : Naps ctx w event w'
  | claims {w' : Worker} (hawake : ∀ id n, w'.phase ≠ .waiting id n)
      (hused : ∀ n ∈ w'.phase.retries?, n = 0) : Naps ctx w .request w'
  | wakes {w' : Worker} {id n : ℕ} (hp : w.phase = .waiting id n)
      (hp' : w'.phase = .fetching id n) : Naps ctx w .wake w'
  | interrupts {w' : Worker} {id : ℕ} {exit : Option WorkerExit}
      (hp : w'.phase = .releasing id exit) : Naps ctx w .interrupt w'

theorem naps_fail {w w₁ : Worker} {event : WorkerEvent} (hevent : event.awake = true)
    {attempt : ℕ} (hattempt : attempt ∈ w.phase.retries?) (id : ℕ) (error : ErrorClass)
    (sh : Shared) : Naps ctx w event (w₁.fail ctx id attempt error sh).2 := by
  unfold Worker.fail
  dsimp only
  split_ifs with hgive
  · exact .other hevent (by simp) (by simp [WorkerPhase.retries?])
  · exact .fails hevent hattempt (by omega) rfl

theorem naps_endBody {w w₁ : Worker} {event : WorkerEvent} (hevent : event.awake = true)
    {attempt : ℕ} (hattempt : attempt ∈ w.phase.retries?) (retire : Bool) (c : ClaimSlot)
    (sh : Shared) : Naps ctx w event (w₁.endBody ctx retire c attempt sh).2 := by
  unfold Worker.endBody
  split_ifs
  · exact naps_fail hevent hattempt _ _ _
  · exact .other hevent (by simp) (by simp [WorkerPhase.retries?])

/-- Every step is one of these. -/
theorem naps_of_step {cancelled retire : Bool} {sh : Shared} {w : Worker} {event : WorkerEvent}
    {r : Shared × Worker} (h : w.step ctx cancelled retire sh event = some r) :
    Naps ctx w event r.2 := by
  have hs := Worker.stepped h
  cases hs with
  | builds ok hp =>
    refine .other rfl ?_ ?_ <;> cases ok <;> simp [WorkerPhase.retries?]
  | checks hp =>
    refine .other rfl ?_ ?_ <;> cases cancelled <;> cases retire <;>
      simp [WorkerPhase.retries?]
  | claims plan c hp hreq => exact .claims (by simp) (by simp [WorkerPhase.retries?])
  | exhausts hp hreq => exact .claims (by simp) (by simp [WorkerPhase.retries?])
  | skips c attempt hp hc hdone =>
    exact .other rfl (by simp) (by simp [WorkerPhase.retries?])
  | withdraws c attempt hp hc hdone hcancelled =>
    exact .other rfl (by simp) (by simp [WorkerPhase.retries?])
  | connects c attempt hp hc hdone hcancelled =>
    exact .other rfl (by simp) (by simp [hp, WorkerPhase.retries?])
  | accepts r id attempt start stop body hp hv =>
    exact .other rfl (by simp) (by simp [hp, WorkerPhase.retries?])
  | refuses r id attempt start stop error hp hv =>
    exact naps_fail rfl (by rw [hp]; rfl) _ _ _
  | stops id attempt rest hp hcancelled =>
    exact naps_fail rfl (by rw [hp]; rfl) _ _ _
  | reads id attempt rest hp hcancelled =>
    exact .other rfl (by simp) (by simp [hp, WorkerPhase.retries?])
  | breaks p id attempt rest hp hpoll =>
    exact naps_fail rfl (by rw [hp]; rfl) _ _ _
  | ends c attempt rest hp hc =>
    exact naps_endBody rfl (by rw [hp]; rfl) _ _ _
  | shrunk c attempt rest n writerGone hp hc hle =>
    exact naps_endBody rfl (by rw [hp]; rfl) _ _ _
  | abandoned c attempt rest n hp hc hlt =>
    exact naps_fail rfl (by rw [hp]; rfl) _ _ _
  | hands c attempt rest n hp hc hn hlt =>
    exact .other rfl (by simp) (by simp [hp, WorkerPhase.retries?])
  | advances c attempt take rest hp hc =>
    exact .other rfl (by simp) (by simp [hp, WorkerPhase.retries?])
  | satisfied c attempt take rest hp hc =>
    exact naps_endBody rfl (by rw [hp]; rfl) _ _ _
  | wakes id attempt hp => exact .wakes hp rfl
  | interrupts id attempt hp hcancelled => exact .interrupts rfl
  | releases id exit hp =>
    refine .other rfl ?_ ?_ <;> cases exit <;> simp [WorkerPhase.retries?]

theorem Sleeper.next_due (w : Worker) (h : ∀ id n, w.phase ≠ .waiting id n) :
    (s.next ctx e w).due = 0 := by
  unfold Sleeper.next
  dsimp only
  split
  · rename_i id n hp
    exact absurd hp (h id n)
  · rfl

theorem Sleeper.next_slept (w : Worker) (h : e.event.awake = true) :
    (s.next ctx e w).slept = s.slept := by
  unfold Sleeper.next
  dsimp only
  cases hevent : e.event with
  | request | wake | interrupt =>
    rw [hevent] at h
    cases h
  | _ => rfl

/-- When the waits do not grow, nor the retries, they stay within the budget. -/
theorem WithinBudget.of_le {s' : Sleeper} (h : WithinBudget ctx limit s)
    (hle : s'.slept + s'.due ≤ s.slept + s.due)
    (hused : ∀ n ∈ s'.worker.phase.retries?, n ∈ s.worker.phase.retries?) :
    WithinBudget ctx limit s' := by
  refine ⟨fun n hn => ?_, hle.trans h.total⟩
  obtain ⟨hmax, hbefore⟩ := h.used n (hused n hn)
  exact ⟨hmax, hle.trans hbefore⟩

theorem WithinBudget.step {s' : Sleeper} (h : WithinBudget ctx limit s) (he : AsksAtMost limit s e)
    (hstep : (sleepMachine ctx).step s e = some s') : WithinBudget ctx limit s' := by
  obtain ⟨r, hr, rfl⟩ := Option.map_eq_some_iff.1 hstep
  have hnaps := naps_of_step hr
  generalize hevent : e.event = event at hnaps
  cases hnaps with
  | other hawake hphase hkeeps =>
    rw [← hevent] at hawake
    refine h.of_le ?_ hkeeps
    rw [Sleeper.next_due r.2 hphase, Sleeper.next_slept r.2 hawake]
    exact Nat.le_add_right _ _
  | @fails _ _ id attempt hawake hattempt hlt hp =>
    rw [← hevent] at hawake
    have hdue : (s.next ctx e r.2).due ≤ longestWait limit attempt := by
      unfold Sleeper.next
      dsimp only
      rw [hp]
      exact retryWait_le (fun d hd => errorAt_limited he s.worker hd) e.draw attempt
    have hbefore : s.slept ≤ budget limit attempt :=
      (Nat.le_add_right _ _).trans (h.used attempt hattempt).2
    have hbudget :
        (s.next ctx e r.2).slept + (s.next ctx e r.2).due ≤ budget limit (attempt + 1) := by
      rw [budget_succ, Sleeper.next_slept r.2 hawake]
      exact Nat.add_le_add hbefore hdue
    refine ⟨fun n hn => ?_, hbudget.trans (budget_mono limit hlt)⟩
    change n ∈ r.2.phase.retries? at hn
    rw [hp] at hn
    obtain rfl := Option.some.inj hn
    exact ⟨hlt, hbudget⟩
  | claims hphase hzero =>
    have hslept : (s.next ctx e r.2).slept = 0 := by
      unfold Sleeper.next
      rw [hevent]
    have hnothing : (s.next ctx e r.2).slept + (s.next ctx e r.2).due = 0 := by
      rw [hslept, Sleeper.next_due r.2 hphase]
    refine ⟨fun n hn => ?_, hnothing.trans_le (Nat.zero_le _)⟩
    obtain rfl := hzero n hn
    exact ⟨Nat.zero_le _, hnothing.trans_le (Nat.zero_le _)⟩
  | @wakes _ id n hp hp' =>
    have hslept : (s.next ctx e r.2).slept = s.slept + s.due := by
      unfold Sleeper.next
      rw [hevent]
    refine h.of_le ?_ fun m hm => ?_
    · rw [hslept, Sleeper.next_due r.2 (by simp [hp'])]
      exact le_rfl
    · change m ∈ r.2.phase.retries? at hm
      rw [hp'] at hm
      rw [hp]
      exact hm
  | interrupts hp =>
    have hslept : (s.next ctx e r.2).slept = s.slept + min e.elapsed s.due := by
      unfold Sleeper.next
      rw [hevent]
    refine h.of_le ?_ fun m hm => ?_
    · rw [hslept, Sleeper.next_due r.2 (by simp [hp])]
      exact Nat.add_le_add_left (min_le_right _ _) _
    · change m ∈ r.2.phase.retries? at hm
      rw [hp] at hm
      cases hm

/-- In every run the waits for one claim stay within the budget. -/
theorem slept_le (h : (sleepMachine ctx).ReachesUnder (AsksAtMost limit) .start s) :
    s.slept ≤ budget limit ctx.maxRetries := by
  have hbudget := h.invariant withinBudget_start fun _ _ _ hs he hst => hs.step he hst
  exact (Nat.le_add_right _ _).trans hbudget.total

/-! ### Runs that use all of it -/

/-- A plan with one claim that is handed out. -/
def claimedPlan : Plan := ⟨none, [], [⟨0, 0, 1, true⟩], 1⟩

/-- The shared state in which the plan has handed out its claim. -/
def claimedShared : Shared := ⟨claimedPlan, 0, []⟩

/-- An event among idle tasks. -/
def SleepEvent.of (sh : Shared) (event : WorkerEvent) (draw : Draw) : SleepEvent :=
  ⟨false, false, sh, event, draw, 0⟩

/-- The plan before that. -/
def freshPlan : Plan := ⟨none, [(0, 1)], [], 0⟩

theorem request_freshPlan : freshPlan.request = (claimedPlan, .claim ⟨0, 0, 1, true⟩) := by
  simp [freshPlan, claimedPlan, Plan.request, Plan.pushSlot, maxByKey]

/-- The event is a response. -/
def WorkerEvent.isResponse : WorkerEvent → Bool
  | .respond _ => true
  | _ => false

/-- Only responses are restricted. -/
def OnResponses (P : Sleeper → SleepEvent → Prop) : Prop :=
  ∀ s e, e.event.isResponse = false → P s e

variable {P : Sleeper → SleepEvent → Prop}

/-- One retry: the worker sends its request, gets the response and sleeps. -/
theorem reaches_retried (hfree : OnResponses P) {attempt : ℕ} (hlt : attempt < ctx.maxRetries)
    {r : Option Response} {error : ErrorClass} {draw : Draw}
    (hr : ∀ s, P s (.of claimedShared (.respond r) draw)) (hv : ctx.verify 0 r = .error error)
    (hretry : error.isRetryable = true) (hphase : s.worker.phase = .fetching 0 attempt) :
    ∃ s', (sleepMachine ctx).ReachesUnder P s s' ∧ s'.worker.phase = .fetching 0 (attempt + 1) ∧
      s'.slept = s.slept + retryWait ctx.backoff draw attempt error := by
  obtain ⟨⟨phase, bytes, requests, retries⟩, due, slept⟩ := s
  obtain rfl : phase = .fetching 0 attempt := hphase
  have hsend : (sleepMachine ctx).step ⟨⟨.fetching 0 attempt, bytes, requests, retries⟩, due, slept⟩
      (.of claimedShared .connect draw) =
        some ⟨⟨.connecting 0 attempt 0 1, bytes, requests + 1, retries⟩, 0, slept⟩ := rfl
  have hfail : (sleepMachine ctx).step
      ⟨⟨.connecting 0 attempt 0 1, bytes, requests + 1, retries⟩, 0, slept⟩
      (.of claimedShared (.respond r) draw) =
        some ⟨⟨.waiting 0 (attempt + 1), bytes, requests + 1, retries + 1⟩,
          retryWait ctx.backoff draw attempt error, slept⟩ := by
    have hstep : Worker.step ctx false false claimedShared
        ⟨.connecting 0 attempt 0 1, bytes, requests + 1, retries⟩ (.respond r) =
          some ({ claimedShared with errors := 1 },
            ⟨.waiting 0 (attempt + 1), bytes, requests + 1, retries + 1⟩) := by
      simp only [Worker.step, hv, Worker.fail, hretry]
      rw [if_neg (by simp; omega)]
      rfl
    refine (congrArg (Option.map _) hstep).trans ?_
    rw [Option.map_some]
    simp only [Sleeper.next, Worker.errorAt, SleepEvent.of, hv, Nat.add_sub_cancel]
  have hwake : (sleepMachine ctx).step
      ⟨⟨.waiting 0 (attempt + 1), bytes, requests + 1, retries + 1⟩,
        retryWait ctx.backoff draw attempt error, slept⟩ (.of claimedShared .wake draw) =
        some ⟨⟨.fetching 0 (attempt + 1), bytes, requests + 1, retries + 1⟩, 0,
          slept + retryWait ctx.backoff draw attempt error⟩ := rfl
  exact ⟨_, ((Machine.ReachesUnder.single (hfree _ _ rfl) hsend).tail (hr _) hfail).tail
    (hfree _ _ rfl) hwake, rfl, rfl⟩

theorem reaches_fetching (hfree : OnResponses P) :
    ∃ s, (sleepMachine ctx).ReachesUnder P .start s ∧ s.worker.phase = .fetching 0 0 ∧
      s.slept = 0 := by
  have hbuild : (sleepMachine ctx).step .start (.of claimedShared (.build true) .greatest) =
      some ⟨⟨.top, 0, 0, 0⟩, 0, 0⟩ := rfl
  have hcheck : (sleepMachine ctx).step ⟨⟨.top, 0, 0, 0⟩, 0, 0⟩
      (.of claimedShared .check .greatest) = some ⟨⟨.asking, 0, 0, 0⟩, 0, 0⟩ := rfl
  have hclaim : (sleepMachine ctx).step ⟨⟨.asking, 0, 0, 0⟩, 0, 0⟩
      (.of ⟨freshPlan, 0, []⟩ .request .greatest) = some ⟨⟨.fetching 0 0, 0, 0, 0⟩, 0, 0⟩ := by
    have hstep : Worker.step ctx false false ⟨freshPlan, 0, []⟩ ⟨.asking, 0, 0, 0⟩ .request =
        some (⟨claimedPlan, 0, []⟩, ⟨.fetching 0 0, 0, 0, 0⟩) := by
      simp only [Worker.step, request_freshPlan]
    simp only [sleepMachine, SleepEvent.of, hstep, Option.map_some]
    rfl
  exact ⟨_, ((Machine.ReachesUnder.single (hfree _ _ rfl) hbuild).tail
    (hfree _ _ rfl) hcheck).tail (hfree _ _ rfl) hclaim, rfl, rfl⟩

/-- Some response makes the worker ask for the longest wait before a retry. -/
def CanExhaust (ctx : WorkerCtx) (P : Sleeper → SleepEvent → Prop) (limit : Nanos) : Prop :=
  ∀ attempt, ∃ r error draw, (∀ s, P s (.of claimedShared (.respond r) draw)) ∧
    ctx.verify 0 r = .error error ∧ error.isRetryable = true ∧
    retryWait ctx.backoff draw attempt error = longestWait limit attempt

/-- When every wait can be the longest, the budget can be used up. -/
theorem reaches_budget (hfree : OnResponses P) (hlongest : CanExhaust ctx P limit)
    (hn : n ≤ ctx.maxRetries) :
    ∃ s, (sleepMachine ctx).ReachesUnder P .start s ∧ s.worker.phase = .fetching 0 n ∧
      s.slept = budget limit n := by
  induction n with
  | zero => exact reaches_fetching hfree
  | succ n ih =>
    obtain ⟨s, hs, hphase, hslept⟩ := ih (by omega)
    obtain ⟨r, error, draw, hr, hv, hretry, hwait⟩ := hlongest n
    obtain ⟨s', hs', hphase', hslept'⟩ := reaches_retried hfree (by omega) hr hv hretry hphase
    refine ⟨s', hs.trans hs', hphase', ?_⟩
    rw [hslept', hslept, hwait, budget_succ]

theorem delayFor_backoff (ctx : WorkerCtx) (attempt : ℕ) :
    ctx.backoff.delayFor .greatest attempt = min (millis 500 * 2 ^ attempt) (secs 30) := by
  have hceiling := ceilingFor_backoff ctx attempt
  have hwhole : millis 1 ∣ ctx.backoff.ceilingFor attempt := by
    rw [hceiling]
    rcases min_choice (millis 500 * 2 ^ attempt) (secs 30) with h | h
    · rw [h]
      exact Dvd.dvd.mul_right (by decide) _
    · rw [h]
      decide
  have hsmall : ctx.backoff.ceilingFor attempt / millis 1 < 2 ^ 64 := by
    have hle : ctx.backoff.ceilingFor attempt ≤ secs 30 := hceiling.trans_le (min_le_right _ _)
    exact (Nat.div_le_div_right hle).trans_lt (by decide)
  exact (Backoff.delayFor_greatest hwhole hsmall).trans hceiling

theorem parseRetryAfter_longest :
    parseRetryAfter (fun _ => none) ['1', '2', '0'] retryCap = some retryCap := by
  decide

/-- **Sleeping.**  Whatever the servers answer and the other tasks do, a worker sleeps for one claim
no longer than two minutes for every retry it has, and no longer than the windows of the backoff
together when no server asks for a delay.  Either bound is reached. -/
theorem retry_budget (ctx : WorkerCtx) :
    IsGreatest {t | ∃ s, (sleepMachine ctx).ReachesUnder ReadsHeaders .start s ∧ s.slept = t}
      (ctx.maxRetries * secs 120) ∧
    IsGreatest {t | ∃ s, (sleepMachine ctx).ReachesUnder AsksNothing .start s ∧ s.slept = t}
      (∑ attempt ∈ range ctx.maxRetries, min (millis 500 * 2 ^ attempt) (secs 30)) := by
  have hlimited : ∀ attempt, longestWait retryCap attempt = retryCap := fun attempt =>
    max_eq_right ((min_le_right _ _).trans (by decide))
  have hwindow : ∀ attempt, longestWait 0 attempt = min (millis 500 * 2 ^ attempt) (secs 30) :=
    fun attempt => max_eq_left (Nat.zero_le _)
  have hcapped : budget retryCap ctx.maxRetries = ctx.maxRetries * secs 120 := by
    unfold budget
    rw [sum_const_nat fun attempt _ => hlimited attempt, card_range]
    rfl
  have hplain : budget 0 ctx.maxRetries =
      ∑ attempt ∈ range ctx.maxRetries, min (millis 500 * 2 ^ attempt) (secs 30) :=
    sum_congr rfl fun attempt _ => hwindow attempt
  rw [← hcapped, ← hplain]
  refine ⟨⟨?_, ?_⟩, ?_, ?_⟩
  · have hresponses : OnResponses ReadsHeaders := fun s e h r hr => by
      rw [hr] at h
      cases h
    -- every response is a 429 that asks for two minutes
    have hexhaust : CanExhaust ctx ReadsHeaders retryCap := by
      intro attempt
      refine ⟨some ⟨429, some retryCap, none, false, []⟩, .rateLimited (some retryCap), .greatest,
        fun s r hr d hd => ?_, rfl, rfl, (hlimited attempt).symm⟩
      obtain rfl := Option.some.inj (WorkerEvent.respond.inj hr)
      obtain rfl := Option.some.inj hd
      exact ⟨_, _, parseRetryAfter_longest⟩
    obtain ⟨s, hs, -, hslept⟩ := reaches_budget hresponses hexhaust (le_refl ctx.maxRetries)
    exact ⟨s, hs, hslept⟩
  · rintro t ⟨s, hs, rfl⟩
    exact slept_le (hs.mono fun _ _ h => .of_reads h)
  · have hresponses : OnResponses AsksNothing := fun s e h r hr => by
      rw [hr] at h
      cases h
    -- every request fails, and every draw is the largest
    have hexhaust : CanExhaust ctx AsksNothing 0 := by
      intro attempt
      refine ⟨none, .transientNetwork, .greatest, fun s r hr => ?_, rfl, rfl,
        (delayFor_backoff ctx attempt).trans (hwindow attempt).symm⟩
      cases WorkerEvent.respond.inj hr
    obtain ⟨s, hs, -, hslept⟩ := reaches_budget hresponses hexhaust (le_refl ctx.maxRetries)
    exact ⟨s, hs, hslept⟩
  · rintro t ⟨s, hs, rfl⟩
    exact slept_le (hs.mono fun _ _ h => .of_nothing h)

end SwiftLoad
