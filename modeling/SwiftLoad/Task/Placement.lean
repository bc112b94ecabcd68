import SwiftLoad.Task.Ownership

/-!
# Where the bytes go

A worker writes a body from the cursor of its claim on.  With a `Range` header it first checks that
the body starts there; without one it does not, and a body that starts elsewhere is written at the
cursor all the same.

* `Response.bodyStart` : where a body belongs, as far as the response says.
* `Drive.Aligned` : the condition on a response under which the worker places its body right.
* `content_placed` : **when every response meets the condition, every message to the writer carries
  the bytes of its offset**, whatever fails, is retried, stolen or resumed.
* `content_misplaced` : a retry without a `Range` header writes the head of the file further down.
-/

namespace SwiftLoad

/-- Where the body of a response belongs, as far as the response says. -/
def Response.bodyStart (r : Response) : Option ℕ :=
  if r.status = 206 then r.contentRange.map ContentRange.start
  else if r.status = 200 then some 0
  else none

section Placed

variable {B : ℕ → UInt8} {offset n : ℕ} {bytes : List UInt8}

theorem Placed.nil : Placed B offset [] := by
  intro i v h
  simp at h

theorem Placed.take (h : Placed B offset bytes) (n : ℕ) : Placed B offset (bytes.take n) := by
  intro i v hi
  rw [List.getElem?_take] at hi
  split_ifs at hi
  exact h i v hi

theorem Placed.drop (h : Placed B offset bytes) (n : ℕ) :
    Placed B (offset + n) (bytes.drop n) := by
  intro i v hi
  rw [List.getElem?_drop] at hi
  rw [Nat.add_assoc]
  exact h (n + i) v hi

theorem Response.Honest.placed {r : Response} (h : r.Honest B) (hs : r.bodyStart = some offset) :
    Placed B offset r.body := by
  unfold bodyStart at hs
  split_ifs at hs with h₁ h₂
  · obtain ⟨cr, hcr, rfl⟩ := Option.map_eq_some_iff.1 hs
    exact h.1 cr h₁ hcr
  · obtain rfl := Option.some.inj hs
    exact h.2 h₂

end Placed

/-! ### One worker -/

/-- What a worker has in hand belongs at the cursor of its claim. -/
def WorkerPhase.Placed (B : ℕ → UInt8) (p : Plan) : WorkerPhase → Prop
  | connecting id _ start _ => ∃ c ∈ p.slots, c.id = id ∧ c.cursor = start
  | streaming id _ rest | reading id _ rest =>
    ∃ c ∈ p.slots, c.id = id ∧ SwiftLoad.Placed B c.cursor rest
  | handing id _ take rest satisfied =>
    satisfied = false → ∃ c ∈ p.slots, c.id = id ∧ SwiftLoad.Placed B (c.cursor + take) rest
  | _ => True

/-- A response that a worker takes starts at `start`, or there is nothing in it. -/
def Response.Fits (ctx : WorkerCtx) (start : ℕ) (r : Response) : Prop :=
  ctx.useRange = true ∨
    (r.success = true → r.transforming = false → r.bodyStart = some start ∨ r.body = [])

section Worker

variable {B : ℕ → UInt8} {ctx : WorkerCtx} {cancelled retire : Bool} {sh sh' : Shared}
  {w w' : Worker} {p p' : Plan} {phase : WorkerPhase}

/-- A verified body belongs where the request started. -/
theorem placed_of_verify {start : ℕ} {r : Option Response} {body : List UInt8}
    (hr : ∀ resp, r = some resp → resp.Honest B ∧ resp.Fits ctx start)
    (h : ctx.verify start r = .ok body) : Placed B start body := by
  obtain ⟨resp, hresp, rfl, hsuccess, htrans, hrange⟩ := WorkerCtx.verify_eq_ok.1 h
  obtain ⟨honest, hfits⟩ := hr resp hresp
  by_cases hu : ctx.useRange = true
  · obtain ⟨hstatus, cr, hcr, hstart, -⟩ := hrange hu
    refine honest.placed ?_
    rw [Response.bodyStart, if_pos hstatus, hcr, Option.map_some, hstart]
  · rcases hfits.resolve_left hu hsuccess htrans with hstart | hempty
    · exact honest.placed hstart
    · rw [hempty]
      exact Placed.nil

theorem placed_fail {id attempt : ℕ} {error : ErrorClass} {r : Shared × Worker}
    (h : w.fail ctx id attempt error sh = r) :
    r.2.phase.Placed B r.1.plan ∧ ∀ m ∈ r.1.sent, m ∈ sh.sent ∨ Placed B m.1 m.2 := by
  subst h
  refine ⟨?_, fun m hm => Or.inl hm⟩
  rcases Worker.fail_phase ctx id attempt error sh w with hphase | hphase <;> rw [hphase] <;>
    trivial

theorem placed_endBody {c : ClaimSlot} {attempt : ℕ} {r : Shared × Worker}
    (h : w.endBody ctx retire c attempt sh = r) :
    r.2.phase.Placed B r.1.plan ∧ ∀ m ∈ r.1.sent, m ∈ sh.sent ∨ Placed B m.1 m.2 := by
  rcases Worker.endBody_cases ctx retire c attempt sh w with ⟨-, -, -, heq⟩ | ⟨-, heq⟩
  · exact placed_fail (heq.symm.trans h)
  · rw [heq] at h
    subst h
    exact ⟨trivial, fun m hm => Or.inl hm⟩

/-- A claim that keeps its cursor keeps what its holder has in hand in place. -/
theorem WorkerPhase.Placed.congr (h : phase.Placed B p)
    (hkeep : ∀ c ∈ p.slots, phase.slot? = some c.id →
      ∃ c' ∈ p'.slots, c'.id = c.id ∧ c'.cursor = c.cursor) : phase.Placed B p' := by
  cases phase with
  | connecting id attempt start stop =>
    obtain ⟨c, hc, rfl, hcur⟩ := h
    obtain ⟨c', hc', hid, hcur'⟩ := hkeep c hc rfl
    exact ⟨c', hc', hid, hcur'.trans hcur⟩
  | streaming id attempt rest =>
    obtain ⟨c, hc, rfl, hrest⟩ := h
    obtain ⟨c', hc', hid, hcur'⟩ := hkeep c hc rfl
    exact ⟨c', hc', hid, hcur'.symm ▸ hrest⟩
  | reading id attempt rest =>
    obtain ⟨c, hc, rfl, hrest⟩ := h
    obtain ⟨c', hc', hid, hcur'⟩ := hkeep c hc rfl
    exact ⟨c', hc', hid, hcur'.symm ▸ hrest⟩
  | handing id attempt take rest satisfied =>
    intro hsat
    obtain ⟨c, hc, rfl, hrest⟩ := h hsat
    obtain ⟨c', hc', hid, hcur'⟩ := hkeep c hc rfl
    exact ⟨c', hc', hid, hcur'.symm ▸ hrest⟩
  | _ => trivial

theorem Worker.Stepped.placed {e : WorkerEvent} {r : Shared × Worker}
    (hst : w.Stepped ctx cancelled retire sh e r) (hv : sh.plan.Valid)
    (h : w.phase.Placed B sh.plan)
    (hr : ∀ id attempt start stop resp, w.phase = .connecting id attempt start stop →
      e = .respond (some resp) → resp.Honest B ∧ resp.Fits ctx start) :
    r.2.phase.Placed B r.1.plan ∧ ∀ m ∈ r.1.sent, m ∈ sh.sent ∨ SwiftLoad.Placed B m.1 m.2 := by
  cases hst with
  | builds ok => exact ⟨by cases ok <;> trivial, fun m hm => Or.inl hm⟩
  | checks => exact ⟨by cases cancelled <;> cases retire <;> trivial, fun m hm => Or.inl hm⟩
  | claims => exact ⟨trivial, fun m hm => Or.inl hm⟩
  | exhausts => exact ⟨trivial, fun m hm => Or.inl hm⟩
  | skips => exact ⟨trivial, fun m hm => Or.inl hm⟩
  | withdraws => exact ⟨trivial, fun m hm => Or.inl hm⟩
  | connects c attempt hp hc =>
    exact ⟨⟨c, (Plan.mem_of_slot? hc).1, rfl, rfl⟩, fun m hm => Or.inl hm⟩
  | accepts _ id attempt start stop body hp hok =>
    rw [hp] at h
    obtain ⟨c, hc, hid, hcur⟩ := h
    refine ⟨⟨c, hc, hid, ?_⟩, fun m hm => Or.inl hm⟩
    rw [hcur]
    exact placed_of_verify (fun resp hresp => hr _ _ _ _ resp hp (by rw [hresp])) hok
  | refuses => exact placed_fail rfl
  | stops => exact placed_fail rfl
  | reads id attempt rest hp =>
    rw [hp] at h
    exact ⟨h, fun m hm => Or.inl hm⟩
  | breaks => exact placed_fail rfl
  | ends => exact placed_endBody rfl
  | shrunk => exact placed_endBody rfl
  | abandoned => exact placed_fail rfl
  | hands c attempt rest n hp hc hn hlt =>
    rw [hp] at h
    obtain ⟨d, hd, hdid, hrest⟩ := h
    obtain rfl := hv.eq_of_id_eq (Plan.mem_of_slot? hc).1 hd hdid.symm
    refine ⟨fun hsat => ⟨c, hd, rfl, ?_⟩, ?_⟩
    · -- the whole chunk was inside the claim
      have htake : min (c.stop - c.cursor) n = n := by
        have := of_decide_eq_false hsat
        omega
      rw [htake]
      exact hrest.drop n
    · intro m hm
      rcases List.mem_append.1 hm with hm | hm
      · exact Or.inl hm
      · rw [List.mem_singleton.1 hm]
        exact Or.inr (hrest.take _)
  | advances c attempt take rest hp hc =>
    rw [hp] at h
    obtain ⟨d, hd, hid, hrest⟩ := h rfl
    refine ⟨⟨d.advance take, Plan.mem_modifySlot.2 ⟨d, hd, ?_⟩, hid, hrest⟩,
      fun m hm => Or.inl hm⟩
    rw [if_pos hid]
  | satisfied c attempt take rest hp hc =>
    have hend : Worker.endBody ctx retire (c.advance take) attempt
        { sh with plan := sh.plan.modifySlot c.id (ClaimSlot.advance take) }
        { w with bytes := w.bytes + take } = _ := rfl
    have hplaced := placed_endBody (B := B) hend
    exact hplaced
  | wakes => exact ⟨trivial, fun m hm => Or.inl hm⟩
  | interrupts => exact ⟨trivial, fun m hm => Or.inl hm⟩
  | releases id exit => exact ⟨by cases exit <;> trivial, fun m hm => Or.inl hm⟩

/-- The messages of a step of a worker, and what the worker has in hand after it. -/
theorem Worker.placed_of_step {e : WorkerEvent} (hv : sh.plan.Valid)
    (h : w.phase.Placed B sh.plan)
    (hr : ∀ id attempt start stop resp, w.phase = .connecting id attempt start stop →
      e = .respond (some resp) → resp.Honest B ∧ resp.Fits ctx start)
    (hst : w.step ctx cancelled retire sh e = some (sh', w')) :
    w'.phase.Placed B sh'.plan ∧ ∀ m ∈ sh'.sent, m ∈ sh.sent ∨ SwiftLoad.Placed B m.1 m.2 :=
  (stepped hst).placed hv h hr

end Worker

/-! ### Whole runs -/

/-- A response tells the truth about the resource `B`. -/
def DriveEvent.Honest (B : ℕ → UInt8) : DriveEvent → Prop
  | .worker _ (.respond (some r)) => r.Honest B
  | _ => True

namespace Drive

variable {B : ℕ → UInt8} {cfg : DriveCfg} {s s' : Drive}

/-- Where the request that worker `i` has sent starts. -/
def connectingAt (s : Drive) (i : ℕ) : Option ℕ :=
  s.workers[i]?.bind fun w =>
    match w.phase with
    | .connecting _ _ start _ => some start
    | _ => none

/-- A response that arrives fits the request it answers. -/
def Aligned (cfg : DriveCfg) (s : Drive) : DriveEvent → Prop
  | .worker i (.respond (some r)) => ∀ start, s.connectingAt i = some start → r.Fits cfg.ctx start
  | _ => True

/-- The messages are placed right, and so is what the workers have in hand. -/
structure WellPlaced (B : ℕ → UInt8) (s : Drive) : Prop where
  owned : s.Owned
  hand : ∀ (i : ℕ) (w : Worker), s.workers[i]? = some w → w.phase.Placed B s.shared.plan
  sent : ∀ m ∈ s.shared.sent, Placed B m.1 m.2

theorem WellPlaced.worker (h : s.WellPlaced B) {i : ℕ} {we : WorkerEvent}
    (hp : (DriveEvent.worker i we).Honest B ∧ s.Aligned cfg (.worker i we))
    (hs : s.step cfg (.worker i we) = some s') : s'.WellPlaced B := by
  have howned := h.owned.step hs
  obtain ⟨w, sh, w', -, hw, hst, rfl⟩ := step_worker hs
  have heff := Worker.effect_of_step hst
  obtain ⟨hhand, hsent⟩ := Worker.placed_of_step h.owned.valid (h.hand i w hw)
    (fun id attempt start stop resp hphase he => by
      subst he
      exact ⟨hp.1, hp.2 start (by simp [connectingAt, hw, hphase])⟩) hst
  refine ⟨howned, ?_, ?_⟩
  · intro j v hv
    obtain ⟨hi, -⟩ := List.getElem?_eq_some_iff.1 hw
    simp only [List.getElem?_set] at hv
    split_ifs at hv with hij
    · obtain rfl := Option.some.inj hv
      exact hhand
    · refine (h.hand j v hv).congr ?_
      intro c hc hcj
      obtain ⟨d, hd, hid, hcur, -⟩ := h.owned.cursor_kept hw heff (Ne.symm hij) hc
        ((slotOf_of_getElem? hv).trans hcj)
      exact ⟨d, hd, hid, hcur⟩
  · intro m hm
    rcases hsent m hm with hm | hm
    · exact h.sent m hm
    · exact hm

theorem WellPlaced.step (h : s.WellPlaced B) {e : DriveEvent}
    (hp : e.Honest B ∧ s.Aligned cfg e) (hs : s.step cfg e = some s') : s'.WellPlaced B := by
  by_cases he : ∃ i w, e = .worker i w
  · obtain ⟨i, we, rfl⟩ := he
    exact h.worker hp hs
  · push Not at he
    obtain ⟨hshared, -⟩ := step_keeps he hs
    refine ⟨h.owned.step hs, ?_, fun m hm => h.sent m (hshared ▸ hm)⟩
    intro j w hw
    rw [hshared]
    rcases step_workers he hs hw with hw | hw | hw
    · exact h.hand j w hw
    · rw [hw]; trivial
    · rw [hw]; trivial

theorem wellPlaced_start (total : Option ℕ) {completed : RangeSet} (hc : completed.Ordered)
    (seed : ℕ) (govCfg : GovernorConfig) (k0 : ℕ) (now : Nanos) :
    (start ((Plan.new total completed).seed seed) govCfg k0 now).WellPlaced B := by
  refine ⟨.start total hc seed govCfg k0 now, ?_, ?_⟩
  · intro i w hw
    simp only [start, spawnWorkers_workers, List.nil_append] at hw
    rw [List.eq_of_mem_replicate (List.mem_of_getElem? hw)]
    trivial
  · intro m hm
    simp [start] at hm

end Drive

/-- **Content placement.**  When every response fits its request, every message to the writer
carries the resource's bytes of its offset, in every run: however requests fail and are retried,
claims are stolen or given back, and whatever was done before. -/
theorem content_placed {B : ℕ → UInt8} {cfg : DriveCfg} {total : Option ℕ} {completed : RangeSet}
    (hc : completed.Ordered) {seed k0 : ℕ} {govCfg : GovernorConfig} {now : Nanos} {s : Drive}
    (h : (driveMachine cfg).ReachesUnder (fun s e => e.Honest B ∧ s.Aligned cfg e)
      (.start ((Plan.new total completed).seed seed) govCfg k0 now) s) :
    ∀ m ∈ s.shared.sent, Placed B m.1 m.2 :=
  (h.invariant (Drive.wellPlaced_start total hc seed govCfg k0 now)
    fun _ _ _ ih hp hst => ih.step hp hst).sent

/-! ### Runs of one worker -/

/-- A resource with the bytes 0, 1, 2 and so on. -/
def ramp (n : ℕ) : UInt8 := UInt8.ofNat n

/-- The events of worker 0 alone. -/
def soloRun (es : List WorkerEvent) : List DriveEvent := es.map (.worker 0)

theorem honest_soloRun {B : ℕ → UInt8} {es : List WorkerEvent}
    (h : ∀ r, .respond (some r) ∈ es → r.Honest B) : ∀ e ∈ soloRun es, e.Honest B := by
  intro e he
  obtain ⟨we, hwe, rfl⟩ := List.mem_map.1 he
  cases we with
  | respond r =>
    cases r with
    | none => trivial
    | some r => exact h r hwe
  | _ => trivial

/-- The first and the second half of four bytes. -/
def rangeHead : ContentRange := ⟨0, 3, some 4, by decide, by simp⟩
def rangeTail : ContentRange := ⟨2, 3, some 4, by decide, by simp⟩

/-- A ranged request that breaks off after two bytes and is taken up at the cursor. -/
theorem content_placed_retry :
    ∃ s, (driveMachine ⟨⟨.supported, some 4, 5⟩, false, 0⟩).exec
        (.start ((Plan.new (some 4) .new).seed 1) {} 1 0)
        (soloRun [.build true, .check, .request, .connect,
          .respond (some { status := 206, contentRange := some rangeHead, body := [0, 1] }),
          .proceed, .poll (.chunk 2 false), .advance, .proceed, .poll .ended, .wake, .connect,
          .respond (some { status := 206, contentRange := some rangeTail, body := [2, 3] }),
          .proceed, .poll (.chunk 2 false)]) = some s ∧
      s.shared.sent = [(0, [0, 1]), (2, [2, 3])] ∧ ∀ m ∈ s.shared.sent, Placed ramp m.1 m.2 := by
  have hrun : ((driveMachine ⟨⟨.supported, some 4, 5⟩, false, 0⟩).exec
        (.start ((Plan.new (some 4) .new).seed 1) {} 1 0)
        (soloRun [.build true, .check, .request, .connect,
          .respond (some { status := 206, contentRange := some rangeHead, body := [0, 1] }),
          .proceed, .poll (.chunk 2 false), .advance, .proceed, .poll .ended, .wake, .connect,
          .respond (some { status := 206, contentRange := some rangeTail, body := [2, 3] }),
          .proceed, .poll (.chunk 2 false)])).map (fun s => s.shared.sent) =
            some [(0, [0, 1]), (2, [2, 3])] := by
    decide +kernel
  obtain ⟨s, hs, hsent⟩ := Option.map_eq_some_iff.1 hrun
  refine ⟨s, hs, hsent, content_placed RangeSet.ordered_new (Machine.reachesUnder_of_exec hs
    fun e he s => ⟨honest_soloRun ?_ e he, ?_⟩)⟩
  · intro r hr
    simp only [List.mem_cons, List.not_mem_nil, or_false, reduceCtorEq, false_or,
      WorkerEvent.respond.injEq, Option.some.injEq] at hr
    rcases hr with rfl | rfl
    · refine ⟨?_, fun h => by simp at h⟩
      intro cr _ hcr
      obtain rfl := Option.some.inj hcr
      intro i v hv
      rcases i with _ | _ | i <;> simp_all [ramp, rangeHead]
    · refine ⟨?_, fun h => by simp at h⟩
      intro cr _ hcr
      obtain rfl := Option.some.inj hcr
      intro i v hv
      rcases i with _ | _ | i <;> simp_all [ramp, rangeTail]
  · obtain ⟨we, -, rfl⟩ := List.mem_map.1 he
    cases we with
    | respond r =>
      cases r with
      | none => trivial
      | some r => exact fun _ _ => Or.inl (by decide)
    | _ => trivial

/-- **A misplaced body.**  Without a `Range` header the retry of a request that broke off after two
bytes is answered with the whole file, whose first bytes are written at the cursor. -/
theorem content_misplaced :
    ∃ s, (driveMachine ⟨⟨.unsupported, some 4, 5⟩, false, 0⟩).ReachesUnder
        (fun _ e => e.Honest ramp) (.start ((Plan.new (some 4) .new).seed 1) {} 1 0) s ∧
      (2, [0, 1]) ∈ s.shared.sent ∧ ¬ Placed ramp 2 [0, 1] := by
  have hrun : ((driveMachine ⟨⟨.unsupported, some 4, 5⟩, false, 0⟩).exec
      (.start ((Plan.new (some 4) .new).seed 1) {} 1 0)
      (soloRun [.build true, .check, .request, .connect,
        .respond (some { status := 200, body := [0, 1, 2, 3] }), .proceed, .poll (.chunk 2 false),
        .advance, .proceed, .poll .broken, .wake, .connect,
        .respond (some { status := 200, body := [0, 1, 2, 3] }), .proceed,
        .poll (.chunk 2 false)])).map (fun s => s.shared.sent) =
          some [(0, [0, 1]), (2, [0, 1])] := by
    decide +kernel
  obtain ⟨s, hs, hsent⟩ := Option.map_eq_some_iff.1 hrun
  have hbody : Placed ramp 0 [0, 1, 2, 3] := by
    intro i v hv
    rcases i with _ | _ | _ | _ | i <;> simp_all [ramp]
  refine ⟨s, Machine.reachesUnder_of_exec hs fun e he _ => honest_soloRun ?_ e he, ?_, ?_⟩
  · intro r hr
    have : r = { status := 200, body := [0, 1, 2, 3] } := by simpa using hr
    rw [this]
    exact ⟨fun _ h => by simp at h, fun _ => hbody⟩
  · rw [hsent]; simp
  · intro h
    exact absurd (h 0 0 rfl) (by decide)

end SwiftLoad
