import SwiftLoad.Task.Ownership

/-!
# Runs that exist

What the driver and its workers can bring about, as opposed to what they must keep: a download with
bytes to fetch can hand its first byte to the writer (`Drive.exists_write`), and one without any can
run to its end (`Drive.exists_end`).  Workers move one at a time in these runs, so a worker's part
is `Worker.steps`.
-/

namespace SwiftLoad

open Ranges

/-- Nothing is claimed, and no byte is unclaimed. -/
structure Plan.Drained (p : Plan) : Prop where
  slots : p.slots = []
  free : ∀ q ∈ p.free, q.2 = 0

/-- The plan after a free range was claimed and given back empty. -/
def Plan.dropFree (idx : ℕ) (p : Plan) : Plan :=
  { p with free := p.free.eraseIdx idx, nextId := p.nextId + 1 }

namespace Plan.Drained

variable {p : Plan}

theorem dropFree (h : p.Drained) (idx : ℕ) : (p.dropFree idx).Drained :=
  ⟨h.slots, fun q hq => h.free q (List.mem_of_mem_eraseIdx hq)⟩

theorem request_nil (h : p.Drained) (hfree : p.free = []) : p.request = (p, .exhausted) := by
  have hactive : p.activeSlots = [] := by rw [activeSlots, h.slots]; rfl
  rcases p.request_cases with ⟨idx, start, len, hidx, -, -⟩ | ⟨-, -, hr⟩ | ⟨-, victim, hv, -⟩
  · simp [hfree] at hidx
  · exact hr
  · simp [hactive] at hv

theorem request_cons (h : p.Drained) (hfree : 0 < p.free.length) :
    ∃ idx start, idx < p.free.length ∧
      p.request = ({ p with free := p.free.eraseIdx idx }.pushSlot start start,
        .claim ⟨p.nextId, start, start, true⟩) := by
  have hne : p.free ≠ [] := List.ne_nil_of_length_pos hfree
  rcases p.request_cases with ⟨idx, start, len, hidx, -, hr⟩ | ⟨hnil, -⟩ | ⟨hnil, -⟩
  · obtain ⟨hlt, hget⟩ := List.getElem?_eq_some_iff.1 hidx
    have hlen : len = 0 := h.free (start, len) (hget ▸ List.getElem_mem hlt)
    rw [hlen, Nat.add_zero] at hr
    exact ⟨idx, start, hlt, hr⟩
  · exact absurd hnil hne
  · exact absurd hnil hne

theorem claim_empty (h : p.Drained) (idx start : ℕ) :
    ({ p with free := p.free.eraseIdx idx }.pushSlot start start).slot? p.nextId =
        some ⟨p.nextId, start, start, true⟩ ∧
      ({ p with free := p.free.eraseIdx idx }.pushSlot start start).release p.nextId =
        p.dropFree idx := by
  have hslots : ({ p with free := p.free.eraseIdx idx }.pushSlot start start).slots =
      [] ++ ⟨p.nextId, start, start, true⟩ :: [] := by simp [h.slots]
  refine ⟨by simp [Plan.slot?, h.slots], ?_⟩
  rw [Plan.release_eq hslots (by simp) (by simp)]
  simp [Plan.pushSlot, Plan.dropFree, ClaimSlot.remaining, h.slots]

end Plan.Drained

theorem Plan.request_of_free {p : Plan} {q : ℕ × ℕ} (hq : q ∈ p.free) (hpos : 0 < q.2) :
    ∃ idx first len, 0 < len ∧
      p.request = ({ p with free := p.free.eraseIdx idx }.pushSlot first (first + len),
        .claim ⟨p.nextId, first, first + len, true⟩) := by
  rcases p.request_cases with ⟨idx, first, len, -, hmax, hr⟩ | ⟨hnil, -⟩ | ⟨hnil, -⟩
  · exact ⟨idx, first, len, hpos.trans_le (hmax q hq), hr⟩
  · simp [hnil] at hq
  · simp [hnil] at hq

/-- A response with the one byte at `start`. -/
def oneByteFrom (start : ℕ) (b : UInt8) : Response where
  status := 206
  contentRange := some ⟨start, start, none, le_rfl, fun _ h => nomatch h⟩
  body := [b]

theorem WorkerCtx.verify_oneByteFrom (ctx : WorkerCtx) (start : ℕ) (b : UInt8) :
    ctx.verify start (some (oneByteFrom start b)) = .ok [b] := by
  simp [verify, oneByteFrom, Response.success, ContentRange.sizeChanged]

/-! ### One worker -/

namespace Worker

variable {ctx : WorkerCtx} {cancelled retire : Bool} {sh sh' : Shared} {w w' : Worker}

/-- The steps of a worker while nobody else moves. -/
def steps (ctx : WorkerCtx) (cancelled retire : Bool) :
    Shared → Worker → List WorkerEvent → Option (Shared × Worker)
  | sh, w, [] => some (sh, w)
  | sh, w, e :: es =>
    (w.step ctx cancelled retire sh e).bind fun r => steps ctx cancelled retire r.1 r.2 es

theorem steps_append {es es' : List WorkerEvent}
    (h : steps ctx cancelled retire sh w es = some (sh', w')) :
    steps ctx cancelled retire sh w (es ++ es') = steps ctx cancelled retire sh' w' es' := by
  induction es generalizing sh w with
  | nil =>
    obtain ⟨rfl, rfl⟩ := Prod.mk.inj (Option.some.inj h)
    rfl
  | cons e es ih =>
    obtain ⟨r, hr, h⟩ := Option.bind_eq_some_iff.1 h
    rw [List.cons_append, steps, hr]
    exact ih h

variable (ctx) in
/-- With a byte to fetch, a new worker can hand one to the writer. -/
theorem steps_write (sh : Shared) {q : Plan} {c : ClaimSlot}
    (hreq : sh.plan.request = (q, .claim c)) (hc : q.slot? c.id = some c)
    (hlt : c.cursor < c.stop) (b : UInt8) :
    ∃ w', steps ctx false false sh .new [.build true, .check, .request, .connect,
      .respond (some (oneByteFrom c.cursor b)), .proceed, .poll (.chunk 1 false)] =
        some ({ sh with plan := q, sent := sh.sent ++ [(c.cursor, [b])] }, w') := by
  have hdone : c.isDone = false := decide_eq_false (Nat.not_le.2 hlt)
  have hmin : min (c.stop - c.cursor) 1 = 1 := by omega
  simp [steps, step, Worker.new, hreq, hc, hdone, WorkerCtx.verify_oneByteFrom, takeChunk,
    Nat.not_le.2 hlt, hmin]

variable (ctx) in
/-- With a byte to fetch, a new worker can send its request. -/
theorem steps_connect (sh : Shared) {q : Plan} {c : ClaimSlot}
    (hreq : sh.plan.request = (q, .claim c)) (hc : q.slot? c.id = some c)
    (hlt : c.cursor < c.stop) :
    ∃ w', steps ctx false false sh .new [.build true, .check, .request, .connect] =
        some ({ sh with plan := q }, w') ∧ w'.phase = .connecting c.id 0 c.cursor c.stop := by
  have hdone : c.isDone = false := decide_eq_false (Nat.not_le.2 hlt)
  simp [steps, step, Worker.new, hreq, hc, hdone]

variable (ctx) in
/-- Without a byte to fetch, a worker can take the empty ranges one by one, and it leaves when none
is left. -/
theorem steps_drained (h : sh.plan.Drained) (hw : w.phase = .top) :
    ∃ es sh' w', steps ctx false false sh w es = some (sh', w') ∧
      w'.phase = .exited .exhausted ∧ sh'.plan.Drained ∧ sh'.sent = sh.sent := by
  induction hn : sh.plan.free.length generalizing sh w with
  | zero =>
    have hfree := List.eq_nil_of_length_eq_zero hn
    refine ⟨[.check, .request], sh, { w with phase := .exited .exhausted }, ?_, rfl, h, rfl⟩
    simp [steps, step, hw, h.request_nil hfree]
  | succ n ih =>
    obtain ⟨idx, start, hidx, hreq⟩ := h.request_cons (by omega)
    obtain ⟨hslot, hback⟩ := h.claim_empty idx start
    -- one empty range is claimed and given back
    have hround : steps ctx false false sh w [.check, .request, .connect, .release] =
        some ({ sh with plan := sh.plan.dropFree idx }, { w with phase := .top }) := by
      simp [steps, step, hw, hreq, hslot, hback, ClaimSlot.isDone]
    have hlen : (sh.plan.dropFree idx).free.length = n := by
      show (sh.plan.free.eraseIdx idx).length = n
      rw [List.length_eraseIdx_of_lt hidx, hn]
      rfl
    have hd : ({ sh with plan := sh.plan.dropFree idx } : Shared).plan.Drained := h.dropFree idx
    obtain ⟨es, sh', w', hes, hexit, hd', hsent⟩ := ih hd (w := { w with phase := .top }) rfl hlen
    exact ⟨_, sh', w', (steps_append hround).trans hes, hexit, hd', hsent⟩

end Worker

/-! ### The driver -/

namespace Drive

variable {cfg : DriveCfg} {s : Drive}

theorem exec_worker {i : ℕ} {es : List WorkerEvent} {w w' : Worker} {sh : Shared}
    {cancelled retire : Bool} (hpc : s.pc ≠ .left) (hcancelled : s.cancelled = cancelled)
    (htoken : s.retireTokens.getD i false = retire) (hw : s.workers[i]? = some w)
    (h : w.steps cfg.ctx cancelled retire s.shared es = some (sh, w')) :
    (driveMachine cfg).exec s (es.map (.worker i)) =
      some { s with shared := sh, workers := s.workers.set i w' } := by
  subst hcancelled htoken
  induction es generalizing s w with
  | nil =>
    obtain ⟨hi, hget⟩ := List.getElem?_eq_some_iff.1 hw
    obtain ⟨rfl, rfl⟩ := Prod.mk.inj (Option.some.inj h)
    rw [← hget, List.set_getElem_self]
    rfl
  | cons e es ih =>
    obtain ⟨⟨sh₁, w₁⟩, hstep, h⟩ := Option.bind_eq_some_iff.1 h
    obtain ⟨hi, -⟩ := List.getElem?_eq_some_iff.1 hw
    have hs : (driveMachine cfg).step s (.worker i e) =
        some { s with shared := sh₁, workers := s.workers.set i w₁ } := by
      show s.step cfg (.worker i e) = _
      simp only [step, if_neg hpc, hw, Option.bind_some, hstep, Option.map_some]
    rw [List.map_cons, Machine.exec_cons hs]
    have := ih (s := { s with shared := sh₁, workers := s.workers.set i w₁ }) (w := w₁) hpc
      (by simp [hi]) h
    simpa only [List.set_set] using this

variable (cfg) in
theorem drains_one {gone rest : List Worker} (hpc : s.pc = .select) (hcalm : s.cancelled = false)
    (htokens : ∀ i, s.retireTokens.getD i false = false)
    (hworkers : s.workers = gone ++ Worker.new :: rest) (hplan : s.shared.plan.Drained) :
    ∃ s' w', (driveMachine cfg).Reaches s s' ∧ s'.workers = gone ++ w' :: rest ∧
      w'.phase = .joined ∧ s'.cancelled = false ∧ s'.fatal = s.fatal ∧
      s'.retireTokens = s.retireTokens ∧ s'.shared.plan.Drained ∧
      s'.shared.sent = s.shared.sent ∧
      s'.pc = if s'.workers.all fun w => decide (w.phase = .joined) then .leaving else .select := by
  have hget : s.workers[gone.length]? = some Worker.new := by simp [hworkers]
  obtain ⟨es, sh, w, hes, hexit, hd, hsent⟩ :=
    Worker.steps_drained cfg.ctx (w := { Worker.new with phase := .top }) hplan rfl
  have hsteps : Worker.steps cfg.ctx false false s.shared Worker.new (.build true :: es) =
      some (sh, w) := hes
  have hrun := exec_worker (by rw [hpc]; decide) hcalm (htokens _) hget hsteps
  have hset : ∀ v, s.workers.set gone.length v = gone ++ v :: rest := fun v => by simp [hworkers]
  rw [hset] at hrun
  have hjoin : (driveMachine cfg).step { s with shared := sh, workers := gone ++ w :: rest }
      (.join gone.length) = some (onJoin gone.length w .exhausted
        { s with shared := sh, workers := gone ++ w :: rest }) := by
    simp [driveMachine, step, hpc, hexit]
  obtain ⟨hshared, hworkers', htokens', -, -, hpc'⟩ := onJoin_spec gone.length w .exhausted
    { s with shared := sh, workers := gone ++ w :: rest }
  have hexhausted : ∀ error, WorkerExit.exhausted ≠ .failed error := by simp
  obtain ⟨hcancelled, hfatal⟩ := onJoin_of_ne_failed hexhausted
    gone.length w { s with shared := sh, workers := gone ++ w :: rest }
  refine ⟨_, { w with phase := .joined }, (Machine.reaches_of_exec hrun).tail trivial hjoin, ?_,
    rfl, hcancelled.trans hcalm, hfatal, htokens', hshared ▸ hd, hshared ▸ hsent, ?_⟩
  · rw [hworkers']
    simp
  · rw [hpc', hworkers', hpc]

variable (cfg) in
theorem drains (n : ℕ) {gone : List Worker} (hpc : s.pc = .select) (hcalm : s.cancelled = false)
    (htokens : ∀ i, s.retireTokens.getD i false = false)
    (hworkers : s.workers = gone ++ List.replicate (n + 1) Worker.new)
    (hgone : ∀ w ∈ gone, w.phase = .joined) (hplan : s.shared.plan.Drained) :
    ∃ s', (driveMachine cfg).Reaches s s' ∧ s'.pc = .leaving ∧ s'.cancelled = false ∧
      s'.fatal = s.fatal ∧ s'.shared.sent = s.shared.sent := by
  induction n generalizing s gone with
  | zero =>
    obtain ⟨s', w', hr, hws, hw', hc, hf, -, -, hsent, hpc'⟩ :=
      drains_one cfg hpc hcalm htokens hworkers hplan
    refine ⟨s', hr, ?_, hc, hf, hsent⟩
    rw [hpc', if_pos]
    rw [hws]
    simpa [hw'] using hgone
  | succ n ih =>
    obtain ⟨s₁, w', hr, hws, hw', hc, hf, htok, hd, hsent, hpc'⟩ :=
      drains_one cfg hpc hcalm htokens hworkers hplan
    have hpc₁ : s₁.pc = .select := by
      rw [hpc', if_neg]
      simp [hws, Worker.new]
    obtain ⟨s', hr', hpc'', hc', hf', hsent'⟩ := ih hpc₁ hc (fun i => htok ▸ htokens i)
      (hws.trans (List.append_assoc gone [w'] _).symm)
      (fun w hw => (List.mem_append.1 hw).elim (hgone w) fun hw => List.mem_singleton.1 hw ▸ hw') hd
    exact ⟨s', hr.trans hr', hpc'', hc', hf'.trans hf, hsent'.trans hsent⟩

theorem exists_leave {s₀ : Drive} (hr : (driveMachine cfg).Reaches s₀ s) (hpc : s.pc = .select) :
    ∃ d, (driveMachine cfg).Reaches s₀ d ∧ d.pc = .left ∧ d.shared = s.shared := by
  have h₁ : (driveMachine cfg).step s .cancel = some { s with cancelled := true } := rfl
  have h₂ : (driveMachine cfg).step { s with cancelled := true } (.tick s.clock false) =
      some { s with cancelled := true, fetched := s.workerBytes, pc := .leaving } := by
    simp [driveMachine, step, onTick, hpc, workerBytes]
  have h₃ : (driveMachine cfg).step { s with
      cancelled := true, fetched := s.workerBytes, pc := .leaving } .leave = some _ := rfl
  exact ⟨_, ((hr.tail trivial h₁).tail trivial h₂).tail trivial h₃, rfl, rfl⟩

section Start

variable (cfg) {plan : Plan} (govCfg : GovernorConfig) {k0 : ℕ} (now : Nanos)

/-- **A download without a byte to fetch can run to its end.** -/
theorem exists_end (hk0 : 1 ≤ k0) (hplan : plan.Drained) :
    ∃ d, (driveMachine cfg).Reaches (start plan govCfg k0 now) d ∧ d.pc = .left ∧
      d.cancelled = false ∧ d.fatal = none ∧ d.shared.sent = [] := by
  obtain ⟨n, rfl⟩ := Nat.exists_eq_add_of_le' hk0
  obtain ⟨s', hr, hpc, hc, hf, hsent⟩ := drains cfg n (by simp [start]) (by simp [start])
    (start_token plan govCfg (n + 1) now)
    ((start_workers plan govCfg (n + 1) now).trans (List.nil_append _).symm) (by simp)
    (by simpa [start] using hplan)
  have hleave : (driveMachine cfg).step s' .leave =
      some { s' with fetched := s'.workerBytes, pc := .left } := by
    simp [driveMachine, step, hpc]
  exact ⟨_, hr.tail trivial hleave, rfl, hc, hf.trans (by simp [start]),
    hsent.trans (by simp [start])⟩

/-- **A download with a byte to fetch can hand one to the writer**, whatever comes then. -/
theorem exists_write (hk0 : 1 ≤ k0) (hslots : plan.slots = []) {q : ℕ × ℕ} (hq : q ∈ plan.free)
    (hpos : 0 < q.2) (b : UInt8) :
    ∃ d offset, (driveMachine cfg).Reaches (start plan govCfg k0 now) d ∧ d.pc = .left ∧
      d.shared.sent = [(offset, [b])] := by
  obtain ⟨idx, first, len, hlen, hr⟩ := Plan.request_of_free hq hpos
  have hget : (start plan govCfg k0 now).workers[0]? = some Worker.new := by
    simp [start_workers, List.getElem?_replicate, Nat.one_le_iff_ne_zero.1 hk0]
  have hshared : (start plan govCfg k0 now).shared = ⟨plan, 0, []⟩ := by simp [start]
  obtain ⟨w', hsteps⟩ := Worker.steps_write cfg.ctx (start plan govCfg k0 now).shared
    (by rw [hshared]; exact hr) (by simp [Plan.slot?, hslots]) (by simpa using hlen) b
  have hrun := exec_worker (by simp [start]) (by simp [start]) (start_token plan govCfg k0 now 0)
    hget hsteps
  obtain ⟨d, hd, hleft, hkept⟩ := exists_leave (Machine.reaches_of_exec hrun) (by simp [start])
  refine ⟨d, first, hd, hleft, ?_⟩
  rw [hkept, hshared]
  rfl

/-- **A download with a byte to fetch can send a request.** -/
theorem exists_connect (hk0 : 1 ≤ k0) (hslots : plan.slots = []) {q : ℕ × ℕ} (hq : q ∈ plan.free)
    (hpos : 0 < q.2) :
    ∃ d id first stop, ∃ w ∈ d.workers, (driveMachine cfg).Reaches (start plan govCfg k0 now) d ∧
      w.phase = .connecting id 0 first stop := by
  obtain ⟨idx, first, len, hlen, hr⟩ := Plan.request_of_free hq hpos
  have hget : (start plan govCfg k0 now).workers[0]? = some Worker.new := by
    simp [start_workers, List.getElem?_replicate, Nat.one_le_iff_ne_zero.1 hk0]
  have hshared : (start plan govCfg k0 now).shared = ⟨plan, 0, []⟩ := by simp [start]
  obtain ⟨w', hsteps, hphase⟩ := Worker.steps_connect cfg.ctx (start plan govCfg k0 now).shared
    (by rw [hshared]; exact hr) (by simp [Plan.slot?, hslots]) (by simpa using hlen)
  have hrun := exec_worker (by simp [start]) (by simp [start]) (start_token plan govCfg k0 now 0)
    hget hsteps
  obtain ⟨hi, -⟩ := List.getElem?_eq_some_iff.1 hget
  exact ⟨_, _, _, _, w', List.mem_set hi w', Machine.reaches_of_exec hrun, hphase⟩

end Start

end Drive

end SwiftLoad
