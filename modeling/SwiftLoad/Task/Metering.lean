import SwiftLoad.Task.Retirement

/-!
# What a step of a worker costs

A worker asks for one claim after another and sends several requests for each, and a server that
never delivers can make it do so.  Two accounts bound this.  A request is paid with the retries
that are left for the claim, and a claim is paid with the credit of its worker, who gets it for
being spawned and for every claim that it finishes.

* `Plan.finished` : a claim with nothing left; only its holder finishes it.
* `Plan.Valid.finished_granted` : a claim that is granted has at least one byte.
* `WorkerPhase.credit`, `Worker.credited_of_step` : claims are paid with bytes.
* `WorkerPhase.left`, `Worker.charged_of_step` : requests are paid with claims.
-/

namespace SwiftLoad

open Ranges

/-! ### Free ranges are not empty -/

namespace Plan

variable {p : Plan} {c : ClaimSlot}

theorem mergeFreeFrom_positive {last : ℕ × ℕ} {l : List (ℕ × ℕ)} (hlast : 0 < last.2)
    (hl : Positive l) : Positive (mergeFreeFrom last l) := by
  induction l generalizing last with
  | nil =>
    intro q hq
    obtain rfl := List.mem_singleton.1 hq
    exact hlast
  | cons q l ih =>
    have hl' : Positive l := fun r hr => hl r (List.mem_cons_of_mem _ hr)
    unfold mergeFreeFrom
    split_ifs
    · exact ih (by dsimp only; omega) hl'
    · intro r hr
      rcases List.mem_cons.1 hr with rfl | hr
      · exact hlast
      · exact ih (hl q List.mem_cons_self) hl' r hr

theorem mergeFree_positive {l : List (ℕ × ℕ)} (hl : Positive l) : Positive (mergeFree l) := by
  cases l with
  | nil => exact hl
  | cons q l =>
    exact mergeFreeFrom_positive (hl q List.mem_cons_self)
      fun r hr => hl r (List.mem_cons_of_mem _ hr)

theorem seedLoop_positive (fuel : ℕ) {free : List (ℕ × ℕ)} (h : Positive free) :
    Positive (seedLoop fuel free) := by
  induction fuel generalizing free with
  | zero => exact h
  | succ fuel ih =>
    unfold seedLoop
    cases hm : maxByKey (fun q : (ℕ × ℕ) × ℕ => q.1.2) free.zipIdx with
    | none => exact h
    | some q =>
      obtain ⟨⟨start, len⟩, idx⟩ := q
      dsimp only
      split_ifs with h₁ h₂
      · exact h
      · exact h
      · refine ih fun r hr => ?_
        rw [(sortByStart_perm _).mem_iff, List.mem_append, List.mem_singleton] at hr
        rcases hr with hr | rfl
        · rcases List.mem_or_eq_of_mem_set hr with hr | rfl
          · exact h r hr
          · dsimp only; omega
        · dsimp only; omega

theorem positive_seed (h : Positive p.free) (n : ℕ) : Positive (p.seed n).free := by
  unfold seed
  split_ifs
  · exact h
  · exact seedLoop_positive _ h

theorem positive_request (h : Positive p.free) : Positive p.request.1.free := by
  rcases p.request_cases with ⟨idx, start, len, -, -, hr⟩ | ⟨-, -, hr⟩ |
    ⟨-, victim, -, splitAt, -, -, -, -, hr⟩ <;> rw [hr]
  · exact fun q hq => h q (List.mem_of_mem_eraseIdx hq)
  · exact h
  · exact h

theorem positive_returnRange (h : Positive p.free) (start len : ℕ) :
    Positive (p.returnRange start len).free := by
  unfold returnRange
  split_ifs with hlen
  · exact h
  · refine mergeFree_positive fun q hq => ?_
    rw [(sortByStart_perm _).mem_iff, List.mem_append, List.mem_singleton] at hq
    rcases hq with hq | rfl
    · exact h q hq
    · exact Nat.pos_of_ne_zero hlen

theorem Valid.positive_release (hv : p.Valid) (h : Positive p.free) (id : ℕ) :
    Positive (p.release id).free := by
  by_cases hid : ∃ c ∈ p.slots, c.id = id
  · obtain ⟨c, hc, rfl⟩ := hid
    obtain ⟨l₁, l₂, hs, h₁, h₂⟩ := hv.split hc
    rw [release_eq hs h₁ h₂]
    exact positive_returnRange h _ _
  · push Not at hid
    rw [release_eq_self hid]
    exact h

/-! ### Finished claims -/

/-- The claim with this id has nothing left to fetch. -/
def finished (p : Plan) (id : ℕ) : Bool := (p.slot? id).all ClaimSlot.isDone

theorem Valid.finished_eq (h : p.Valid) (hc : c ∈ p.slots) : p.finished c.id = c.isDone := by
  rw [finished, h.slot?_eq hc, Option.all_some]

/-- A request finishes no claim: a steal leaves the victim a piece. -/
theorem Valid.finished_request (h : p.Valid) (hc : c ∈ p.slots) :
    p.request.1.finished c.id = p.finished c.id := by
  have hv := h.request_spec.1
  rcases p.request_cases with ⟨idx, start, len, -, -, hr⟩ | ⟨-, -, hr⟩ |
    ⟨-, victim, hvic, splitAt, -, hrem, hlo, hhi, hr⟩
  · rw [hr] at hv ⊢
    rw [hv.finished_eq (mem_pushSlot.2 (Or.inl hc)), h.finished_eq hc]
  · rw [hr]
  · rw [hr] at hv ⊢
    dsimp only at hv ⊢
    by_cases hid : c.id = victim.id
    · obtain rfl := h.eq_of_id_eq hc (mem_activeSlots.1 hvic).1 hid
      have hmem : c.shrink splitAt ∈
          ((p.modifySlot c.id (ClaimSlot.shrink splitAt)).pushSlot splitAt c.stop).slots :=
        mem_pushSlot.2 (Or.inl (mem_modifySlot.2 ⟨c, hc, (if_pos rfl).symm⟩))
      have hold : c.isDone = false := by
        have hlt : ¬c.stop ≤ c.cursor := by
          simp only [ClaimSlot.remaining, minSegment] at hrem
          omega
        exact decide_eq_false hlt
      have hnew : (c.shrink splitAt).isDone = false := by
        have hlt : ¬splitAt ≤ c.cursor := by
          simp only [minSegment] at hlo
          omega
        exact decide_eq_false hlt
      rw [h.finished_eq hc, hold]
      exact (hv.finished_eq hmem).trans hnew
    · have hmem : c ∈ ((p.modifySlot victim.id (ClaimSlot.shrink splitAt)).pushSlot splitAt
          victim.stop).slots :=
        mem_pushSlot.2 (Or.inl (mem_modifySlot.2 ⟨c, hc, (if_neg hid).symm⟩))
      rw [hv.finished_eq hmem, h.finished_eq hc]

theorem request_nextId {q : Plan} (h : p.request = (q, .claim c)) : q.nextId = p.nextId + 1 := by
  rcases p.request_cases with ⟨idx, start, len, -, -, hr⟩ | ⟨-, -, hr⟩ |
    ⟨-, victim, -, splitAt, -, -, -, -, hr⟩ <;> obtain ⟨rfl, hg⟩ := Prod.mk.inj (h.symm.trans hr)
  · rfl
  · cases hg
  · rfl

theorem Valid.finished_granted (h : p.Valid) (hfree : Positive p.free) {q : Plan}
    (hr : p.request = (q, .claim c)) : q.finished c.id = false := by
  have hv : q.Valid := by
    have := h.request_spec.1
    rwa [hr] at this
  rw [hv.finished_eq (request_claim hr).2.1]
  rcases p.request_cases with ⟨idx, start, len, hidx, -, hr'⟩ | ⟨-, -, hr'⟩ |
    ⟨-, victim, hvic, splitAt, -, hrem, hlo, hhi, hr'⟩ <;>
      obtain ⟨rfl, hg⟩ := Prod.mk.inj (hr.symm.trans hr')
  · obtain rfl := Grant.claim.inj hg
    have hlen : 0 < len := hfree _ (List.mem_of_getElem? hidx)
    simp only [ClaimSlot.isDone, decide_eq_false_iff_not]
    omega
  · cases hg
  · obtain rfl := Grant.claim.inj hg
    simp only [ClaimSlot.isDone, splitAlign, decide_eq_false_iff_not] at hhi ⊢
    omega

/-! ### What is outstanding -/

theorem Valid.outstanding_of_cover (h : p.Valid) {q : Plan} (hq : q.Valid)
    (hcov : cover q.ranges = cover p.ranges) : q.outstanding = p.outstanding := by
  rw [hq.outstanding_eq, h.outstanding_eq, hcov]

theorem Valid.outstanding_advance (h : p.Valid) (hc : c ∈ p.slots) (n : ℕ) :
    (p.modifySlot c.id (ClaimSlot.advance n)).outstanding + c.remaining =
      p.outstanding + (c.advance n).remaining := by
  obtain ⟨rest, hold, hnew⟩ := h.modify_ranges hc
  have hnew := hnew (ClaimSlot.advance n) (h.active c hc)
  have h₁ : size p.ranges = c.remaining + size rest :=
    (hold.map Prod.snd).sum_eq.trans List.sum_cons
  have h₂ : size (p.modifySlot c.id (ClaimSlot.advance n)).ranges =
      (c.advance n).remaining + size rest := (hnew.map Prod.snd).sum_eq.trans List.sum_cons
  rw [outstanding_eq_size, outstanding_eq_size, h₁, h₂]
  omega

/-- Advancing a claim gives up at least a byte when it finishes the claim. -/
theorem Valid.finished_advance (h : p.Valid) (hc : c ∈ p.slots) (n : ℕ) :
    (p.modifySlot c.id (ClaimSlot.advance n)).outstanding +
        ((p.modifySlot c.id (ClaimSlot.advance n)).finished c.id).toNat ≤
      p.outstanding + (p.finished c.id).toNat := by
  have hmem : c.advance n ∈ (p.modifySlot c.id (ClaimSlot.advance n)).slots :=
    mem_modifySlot.2 ⟨c, hc, (if_pos rfl).symm⟩
  have hnew : (p.modifySlot c.id (ClaimSlot.advance n)).finished c.id = (c.advance n).isDone :=
    (h.advance_spec hc n).1.finished_eq hmem
  have hout := h.outstanding_advance hc n
  rw [hnew, h.finished_eq hc]
  by_cases hdone : c.stop ≤ c.cursor
  · have hd : c.isDone = true := decide_eq_true hdone
    have := Bool.toNat_le (c.advance n).isDone
    simp only [ClaimSlot.remaining, ClaimSlot.advance] at hout
    rw [hd, Bool.toNat_true]
    omega
  · by_cases hdone' : c.stop ≤ c.cursor + n
    · have := Bool.toNat_le (c.advance n).isDone
      simp only [ClaimSlot.remaining, ClaimSlot.advance] at hout
      omega
    · have hd : (c.advance n).isDone = false := decide_eq_false hdone'
      simp only [ClaimSlot.remaining, ClaimSlot.advance] at hout
      rw [hd, Bool.toNat_false]
      omega

@[simp] theorem release_nextId (id : ℕ) (p : Plan) : (p.release id).nextId = p.nextId := by
  unfold release
  split <;> rfl

end Plan

/-! ### One worker -/

namespace WorkerPhase

/-- One for a worker that may still ask for a claim: it was just spawned, or it has finished the
claim it holds.  A worker that holds an unfinished claim has to fetch a byte first. -/
def credit (p : Plan) (retired : Bool) : WorkerPhase → ℕ
  | starting | asking => 1
  | top => (!retired).toNat
  | fetching id _ | connecting id _ _ _ | streaming id _ _ | reading id _ _ | handing id _ _ _ _
  | waiting id _ | releasing id none => (p.finished id).toNat
  | releasing _ (some _) | exited _ | joined => 0

/-- The retries made for the claim. -/
def attempts : WorkerPhase → ℕ
  | fetching _ attempt | connecting _ attempt _ _ | streaming _ attempt _ | reading _ attempt _
  | handing _ attempt _ _ _ | waiting _ attempt => attempt
  | _ => 0

/-- The requests that may still be sent for the claim. -/
def left (maxRetries : ℕ) : WorkerPhase → ℕ
  | fetching _ attempt | waiting _ attempt => maxRetries + 1 - attempt
  | connecting _ attempt _ _ | streaming _ attempt _ | reading _ attempt _
  | handing _ attempt _ _ _ => maxRetries - attempt
  | _ => 0

/-- A claim is given back unfinished only by a worker that stops. -/
def Earned (p : Plan) (retired : Bool) : WorkerPhase → Prop
  | releasing id none => p.finished id = true ∨ retired = true
  | _ => True

end WorkerPhase

namespace Worker

variable {ctx : WorkerCtx} {cancelled retire : Bool} {sh sh' : Shared} {w w' : Worker}
  {e : WorkerEvent} {r : Shared × Worker}

/-- What a step costs in requests: they are paid with what was left for the claim, and a new claim
pays for `ctx.maxRetries + 1`. -/
structure Charged (ctx : WorkerCtx) (e : WorkerEvent) (sh : Shared) (w : Worker) (sh' : Shared)
    (w' : Worker) : Prop where
  attempts : w'.phase.attempts ≤ ctx.maxRetries
  mono : w.requests ≤ w'.requests
  paid : w'.requests + w'.phase.left ctx.maxRetries + (ctx.maxRetries + 1) * sh.plan.nextId ≤
    w.requests + w.phase.left ctx.maxRetries + (ctx.maxRetries + 1) * sh'.plan.nextId
  head : e = .connect → w'.phase.left ctx.maxRetries < w.phase.left ctx.maxRetries

theorem Charged.of_le (he : e ≠ .connect) (hid : sh'.plan.nextId = sh.plan.nextId)
    (hreq : w'.requests = w.requests) (ha : w'.phase.attempts ≤ ctx.maxRetries)
    (hle : w'.phase.left ctx.maxRetries ≤ w.phase.left ctx.maxRetries) :
    Charged ctx e sh w sh' w' where
  attempts := ha
  mono := hreq.ge
  paid := by rw [hid, hreq]; omega
  head := fun h => absurd h he

theorem fail_left {id attempt : ℕ} {error : ErrorClass}
    (hr : w.fail ctx id attempt error sh = r) :
    r.1.plan.nextId = sh.plan.nextId ∧ r.2.requests = w.requests ∧
      r.2.phase.attempts ≤ ctx.maxRetries ∧
      r.2.phase.left ctx.maxRetries ≤ ctx.maxRetries - attempt := by
  subst hr
  unfold fail
  dsimp only
  split_ifs with hlast
  · exact ⟨rfl, rfl, Nat.zero_le _, Nat.zero_le _⟩
  · have hlt : attempt < ctx.maxRetries := Nat.lt_of_not_le fun hle => hlast (Or.inr hle)
    refine ⟨rfl, rfl, hlt, ?_⟩
    simp only [WorkerPhase.left]
    omega

theorem endBody_left {c : ClaimSlot} {attempt : ℕ}
    (hr : w.endBody ctx retire c attempt sh = r) :
    r.1.plan.nextId = sh.plan.nextId ∧ r.2.requests = w.requests ∧
      r.2.phase.attempts ≤ ctx.maxRetries ∧
      r.2.phase.left ctx.maxRetries ≤ ctx.maxRetries - attempt := by
  rcases endBody_cases ctx retire c attempt sh w with ⟨-, -, -, h⟩ | ⟨-, h⟩
  · exact fail_left (h.symm.trans hr)
  · rw [h] at hr
    subst hr
    exact ⟨rfl, rfl, Nat.zero_le _, Nat.zero_le _⟩

/-- A step after which the attempt goes on, or ends without a new request. -/
theorem Charged.of_attempt {attempt : ℕ} (he : e ≠ .connect)
    (hleft : w.phase.left ctx.maxRetries = ctx.maxRetries - attempt)
    (h : sh'.plan.nextId = sh.plan.nextId ∧ w'.requests = w.requests ∧
      w'.phase.attempts ≤ ctx.maxRetries ∧
      w'.phase.left ctx.maxRetries ≤ ctx.maxRetries - attempt) : Charged ctx e sh w sh' w' :=
  .of_le he h.1 h.2.1 h.2.2.1 (h.2.2.2.trans hleft.ge)

theorem Stepped.charged (h : Stepped ctx cancelled retire sh w e r)
    (ha : w.phase.attempts ≤ ctx.maxRetries) : Charged ctx e sh w r.1 r.2 := by
  cases h with
  | builds ok hp => cases ok <;> exact .of_le (by simp) rfl rfl (Nat.zero_le _) (Nat.zero_le _)
  | checks hp =>
    cases cancelled <;> cases retire <;>
      exact .of_le (by simp) rfl rfl (Nat.zero_le _) (Nat.zero_le _)
  | claims plan c hp hreq =>
    have hid : plan.nextId = sh.plan.nextId + 1 := Plan.request_nextId hreq
    refine ⟨Nat.zero_le _, le_rfl, ?_, by simp⟩
    simp only [WorkerPhase.left, hid, Nat.mul_add]
    omega
  | exhausts hp => exact .of_le (by simp) rfl rfl (Nat.zero_le _) (Nat.zero_le _)
  | skips c attempt hp =>
    rw [hp] at ha
    have hle : attempt ≤ ctx.maxRetries := ha
    refine ⟨Nat.zero_le _, le_rfl, ?_, fun _ => ?_⟩ <;> rw [hp] <;>
      simp only [WorkerPhase.left] <;> omega
  | withdraws c attempt hp =>
    rw [hp] at ha
    have hle : attempt ≤ ctx.maxRetries := ha
    refine ⟨Nat.zero_le _, le_rfl, ?_, fun _ => ?_⟩ <;> rw [hp] <;>
      simp only [WorkerPhase.left] <;> omega
  | connects c attempt hp =>
    rw [hp] at ha
    have hle : attempt ≤ ctx.maxRetries := ha
    refine ⟨ha, Nat.le_succ _, ?_, fun _ => ?_⟩ <;> rw [hp] <;>
      simp only [WorkerPhase.left] <;> omega
  | accepts _ id attempt start stop body hp =>
    rw [hp] at ha
    exact .of_attempt (by simp) (by rw [hp]; rfl) ⟨rfl, rfl, ha, le_rfl⟩
  | refuses _ id attempt start stop error hp =>
    exact .of_attempt (by simp) (by rw [hp]; rfl) (fail_left rfl)
  | stops id attempt rest hp =>
    exact .of_attempt (by simp) (by rw [hp]; rfl) (fail_left rfl)
  | reads id attempt rest hp =>
    rw [hp] at ha
    exact .of_attempt (by simp) (by rw [hp]; rfl) ⟨rfl, rfl, ha, le_rfl⟩
  | breaks _ id attempt rest hp => exact .of_attempt (by simp) (by rw [hp]; rfl) (fail_left rfl)
  | ends c attempt rest hp => exact .of_attempt (by simp) (by rw [hp]; rfl) (endBody_left rfl)
  | shrunk c attempt rest n _ hp =>
    exact .of_attempt (by simp) (by rw [hp]; rfl) (endBody_left rfl)
  | abandoned c attempt rest n hp =>
    exact .of_attempt (by simp) (by rw [hp]; rfl) (fail_left rfl)
  | hands c attempt rest n hp =>
    rw [hp] at ha
    exact .of_attempt (by simp) (by rw [hp]; rfl) ⟨rfl, rfl, ha, le_rfl⟩
  | advances c attempt take rest hp =>
    rw [hp] at ha
    exact .of_attempt (by simp) (by rw [hp]; rfl) ⟨rfl, rfl, ha, le_rfl⟩
  | satisfied c attempt take rest hp =>
    have hend : Worker.endBody ctx retire (c.advance take) attempt
        { sh with plan := sh.plan.modifySlot c.id (ClaimSlot.advance take) }
        { w with bytes := w.bytes + take } = _ := rfl
    have hleft := endBody_left hend
    exact .of_attempt (by simp) (by rw [hp]; rfl) hleft
  | wakes id attempt hp =>
    rw [hp] at ha
    exact .of_le (by simp) rfl rfl ha (by rw [hp]; exact le_rfl)
  | interrupts id attempt hp => exact .of_le (by simp) rfl rfl (Nat.zero_le _) (Nat.zero_le _)
  | releases id exit hp =>
    cases exit <;>
      exact .of_le (by simp) (Plan.release_nextId _ _) rfl (Nat.zero_le _) (Nat.zero_le _)

/-- **Requests are paid with claims.** -/
theorem charged_of_step (ha : w.phase.attempts ≤ ctx.maxRetries)
    (h : w.step ctx cancelled retire sh e = some (sh', w')) : Charged ctx e sh w sh' w' :=
  (stepped h).charged ha

/-- What a step costs in claims: a claim is paid with the credit of its worker, and a worker gets
credit for a byte. -/
structure Credited (retire : Bool) (e : WorkerEvent) (sh : Shared) (w : Worker) (sh' : Shared)
    (w' : Worker) : Prop where
  earned : w'.phase.Earned sh'.plan retire
  paid : sh'.plan.nextId + (sh'.plan.outstanding + w'.phase.credit sh'.plan retire) ≤
    sh.plan.nextId + (sh.plan.outstanding + w.phase.credit sh.plan retire)
  mono : sh.plan.nextId ≤ sh'.plan.nextId
  head : e = .request → sh'.plan.outstanding + w'.phase.credit sh'.plan retire <
    sh.plan.outstanding + w.phase.credit sh.plan retire

theorem Credited.of_le (he : e ≠ .request) (hid : sh'.plan.nextId = sh.plan.nextId)
    (hearned : w'.phase.Earned sh'.plan retire)
    (hle : sh'.plan.outstanding + w'.phase.credit sh'.plan retire ≤
      sh.plan.outstanding + w.phase.credit sh.plan retire) :
    Credited retire e sh w sh' w' where
  earned := hearned
  paid := by omega
  mono := hid.ge
  head := fun h => absurd h he

theorem fail_credit {id attempt : ℕ} {error : ErrorClass}
    (hr : w.fail ctx id attempt error sh = r) (retire : Bool) :
    r.1.plan = sh.plan ∧ r.2.phase.Earned sh.plan retire ∧
      r.2.phase.credit sh.plan retire ≤ (sh.plan.finished id).toNat := by
  subst hr
  rcases fail_phase ctx id attempt error sh w with h | h <;> rw [h]
  · exact ⟨rfl, trivial, Nat.zero_le _⟩
  · exact ⟨rfl, trivial, le_rfl⟩

/-- A body that ends early leaves the claim unfinished only if the worker is to stop. -/
theorem endBody_credit {c : ClaimSlot} {attempt : ℕ}
    (hr : w.endBody ctx retire c attempt sh = r) (hu : ctx.useRange = true)
    (hdone : sh.plan.finished c.id = c.isDone) :
    r.1.plan = sh.plan ∧ r.2.phase.Earned sh.plan retire ∧
      r.2.phase.credit sh.plan retire ≤ (sh.plan.finished c.id).toNat := by
  rcases endBody_cases ctx retire c attempt sh w with ⟨-, -, -, h⟩ | ⟨hstop, h⟩
  · exact fail_credit (h.symm.trans hr) retire
  · rw [h] at hr
    subst hr
    refine ⟨rfl, ?_, le_rfl⟩
    by_cases hlt : c.cursor < c.stop
    · exact Or.inr (hstop hu hlt)
    · exact Or.inl (hdone.trans (decide_eq_true (Nat.not_lt.1 hlt)))

theorem Credited.of_claim {id : ℕ} (he : e ≠ .request)
    (hcredit : w.phase.credit sh.plan retire = (sh.plan.finished id).toNat)
    (h : sh'.plan = sh.plan ∧ w'.phase.Earned sh.plan retire ∧
      w'.phase.credit sh.plan retire ≤ (sh.plan.finished id).toNat) :
    Credited retire e sh w sh' w' := by
  obtain ⟨h₁, h₂, h₃⟩ := h
  refine .of_le he (by rw [h₁]) (by rw [h₁]; exact h₂) ?_
  rw [h₁, hcredit]
  omega

theorem Stepped.credited (h : Stepped ctx cancelled retire sh w e r) (hu : ctx.useRange = true)
    (hv : sh.plan.Valid) (hfree : Positive sh.plan.free)
    (hearned : w.phase.Earned sh.plan retire) : Credited retire e sh w r.1 r.2 := by
  cases h with
  | builds ok hp =>
    refine .of_le (by simp) rfl (by cases ok <;> trivial) ?_
    rw [hp]
    cases ok
    · exact Nat.add_le_add_left (Nat.zero_le _) _
    · exact Nat.add_le_add_left (Bool.toNat_le _) _
  | checks hp =>
    refine .of_le (by simp) rfl (by cases cancelled <;> cases retire <;> trivial) ?_
    rw [hp]
    cases cancelled <;> cases retire <;> simp [WorkerPhase.credit]
  | claims plan c hp hreq =>
    have hcredit : w.phase.credit sh.plan retire = 1 := by rw [hp]; rfl
    have hspec := hv.request_spec
    rw [hreq] at hspec
    have hout : plan.outstanding = sh.plan.outstanding := hv.outstanding_of_cover hspec.1 hspec.2
    have hid : plan.nextId = sh.plan.nextId + 1 := Plan.request_nextId hreq
    have hnew : (WorkerPhase.fetching c.id 0).credit plan retire = 0 := by
      simp only [WorkerPhase.credit, hv.finished_granted hfree hreq, Bool.toNat_false]
    refine ⟨trivial, ?_, by dsimp only; omega, fun _ => ?_⟩ <;> dsimp only <;>
      rw [hnew, hout, hcredit] <;> omega
  | exhausts hp =>
    have hcredit : w.phase.credit sh.plan retire = 1 := by rw [hp]; rfl
    refine ⟨trivial, ?_, le_rfl, fun _ => ?_⟩ <;> rw [hcredit] <;>
      simp only [WorkerPhase.credit] <;> omega
  | skips c attempt hp hc hdone =>
    refine .of_claim (by simp) (by rw [hp]; rfl) ⟨rfl, Or.inl ?_, le_rfl⟩
    rw [Plan.finished, hc, Option.all_some, hdone]
  | withdraws c attempt hp =>
    exact .of_claim (by simp) (by rw [hp]; rfl) ⟨rfl, trivial, Nat.zero_le _⟩
  | connects c attempt hp =>
    exact .of_claim (by simp) (by rw [hp]; rfl) ⟨rfl, trivial, le_rfl⟩
  | accepts _ id attempt start stop body hp =>
    exact .of_claim (by simp) (by rw [hp]; rfl) ⟨rfl, trivial, le_rfl⟩
  | refuses _ id attempt start stop error hp =>
    exact .of_claim (by simp) (by rw [hp]; rfl) (fail_credit rfl retire)
  | stops id attempt rest hp =>
    exact .of_claim (by simp) (by rw [hp]; rfl) (fail_credit rfl retire)
  | reads id attempt rest hp =>
    exact .of_claim (by simp) (by rw [hp]; rfl) ⟨rfl, trivial, le_rfl⟩
  | breaks _ id attempt rest hp =>
    exact .of_claim (by simp) (by rw [hp]; rfl) (fail_credit rfl retire)
  | ends c attempt rest hp hc =>
    have hdone := hv.finished_eq (Plan.mem_of_slot? hc).1
    exact .of_claim (by simp) (by rw [hp]; rfl) (endBody_credit rfl hu hdone)
  | shrunk c attempt rest n _ hp hc =>
    have hdone := hv.finished_eq (Plan.mem_of_slot? hc).1
    exact .of_claim (by simp) (by rw [hp]; rfl) (endBody_credit rfl hu hdone)
  | abandoned c attempt rest n hp =>
    exact .of_claim (by simp) (by rw [hp]; rfl) (fail_credit rfl retire)
  | hands c attempt rest n hp =>
    exact .of_claim (by simp) (by rw [hp]; rfl) ⟨rfl, trivial, le_rfl⟩
  | advances c attempt take rest hp hc =>
    refine .of_le (by simp) rfl trivial ?_
    rw [hp]
    exact hv.finished_advance (Plan.mem_of_slot? hc).1 take
  | satisfied c attempt take rest hp hc =>
    have hmem := (Plan.mem_of_slot? hc).1
    have hadv : c.advance take ∈ (sh.plan.modifySlot c.id (ClaimSlot.advance take)).slots :=
      Plan.mem_modifySlot.2 ⟨c, hmem, (if_pos rfl).symm⟩
    have hend : Worker.endBody ctx retire (c.advance take) attempt
        { sh with plan := sh.plan.modifySlot c.id (ClaimSlot.advance take) }
        { w with bytes := w.bytes + take } = _ := rfl
    obtain ⟨h₁, h₂, h₃⟩ :=
      endBody_credit hend hu ((hv.advance_spec hmem take).1.finished_eq hadv)
    refine .of_le (by simp) (by rw [h₁]; rfl) (by rw [h₁]; exact h₂) ?_
    rw [h₁, hp]
    exact (Nat.add_le_add_left h₃ _).trans (hv.finished_advance hmem take)
  | wakes id attempt hp =>
    exact .of_claim (by simp) (by rw [hp]; rfl) ⟨rfl, trivial, le_rfl⟩
  | interrupts id attempt hp =>
    exact .of_le (by simp) rfl trivial (Nat.add_le_add_left (Nat.zero_le _) _)
  | releases id exit hp =>
    have hspec := hv.release_spec id
    have hout : (sh.plan.release id).outstanding = sh.plan.outstanding :=
      hv.outstanding_of_cover hspec.1 hspec.2
    cases exit with
    | some exit =>
      exact .of_le (by simp) (Plan.release_nextId _ _) trivial
        (hout ▸ Nat.add_le_add_left (Nat.zero_le _) _)
    | none =>
      refine .of_le (by simp) (Plan.release_nextId _ _) trivial ?_
      rw [hp] at hearned
      have hcredit : w.phase.credit sh.plan retire = (sh.plan.finished id).toNat := by
        rw [hp]; rfl
      show (sh.plan.release id).outstanding + (!retire).toNat ≤ _
      rw [hout, hcredit]
      -- a claim that is given back unfinished is the last of its worker
      rcases hearned with hdone | hretire
      · rw [hdone]
        exact Nat.add_le_add_left (Bool.toNat_le _) _
      · rw [hretire]
        exact Nat.add_le_add_left (Nat.zero_le _) _

/-- **Claims are paid with bytes.** -/
theorem credited_of_step (hu : ctx.useRange = true) (hv : sh.plan.Valid)
    (hfree : Positive sh.plan.free) (hearned : w.phase.Earned sh.plan retire)
    (h : w.step ctx cancelled retire sh e = some (sh', w')) :
    Credited retire e sh w sh' w' := (stepped h).credited hu hv hfree hearned

end Worker

namespace WorkerPhase

variable {p p' : Plan} {retired retired' : Bool} {phase : WorkerPhase}

/-- A cancelled token takes credit away. -/
theorem credit_le (hretired : retired = true → retired' = true) :
    phase.credit p retired' ≤ phase.credit p retired := by
  cases phase with
  | top => cases retired <;> cases retired' <;> simp_all [credit]
  | releasing id exit => cases exit <;> exact le_rfl
  | _ => exact le_rfl

theorem credit_congr (h : ∀ id, phase.slot? = some id → p'.finished id = p.finished id) :
    phase.credit p' retired = phase.credit p retired := by
  cases phase with
  | releasing id exit =>
    cases exit with
    | none => exact congrArg Bool.toNat (h id rfl)
    | some exit => rfl
  | fetching id attempt => exact congrArg Bool.toNat (h id rfl)
  | connecting id attempt start stop => exact congrArg Bool.toNat (h id rfl)
  | streaming id attempt rest => exact congrArg Bool.toNat (h id rfl)
  | reading id attempt rest => exact congrArg Bool.toNat (h id rfl)
  | handing id attempt take rest satisfied => exact congrArg Bool.toNat (h id rfl)
  | waiting id attempt => exact congrArg Bool.toNat (h id rfl)
  | _ => rfl

theorem Earned.congr (he : phase.Earned p retired) (hretired : retired = true → retired' = true)
    (h : ∀ id, phase.slot? = some id → p'.finished id = p.finished id) :
    phase.Earned p' retired' := by
  cases phase with
  | releasing id exit =>
    cases exit with
    | none => exact he.imp (fun hdone => (h id rfl).trans hdone) hretired
    | some exit => trivial
  | _ => trivial

end WorkerPhase

end SwiftLoad
