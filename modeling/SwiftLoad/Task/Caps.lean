import SwiftLoad.Task.Retirement
import SwiftLoad.Task.Settling
import SwiftLoad.Task.SingleStream

/-!
# Connection caps

The starting count and the growth take their limits from different settings: `initial_conns` looks
at `max_total_conns`, the governor does not, and neither looks at `max_conns_per_host`.

* `Drive.Idle` : the workers of a download that does not move.
* `Drive.Idle.peaks` : such a download climbs to the configured maximum or to the number of
  missing segments.
* `Drive.Peaked` : the invariant: no download has more workers than that.
* `caps_hold_iff` : **when all caps hold at every moment of a run.**
-/

namespace SwiftLoad

open Ranges

/-! ### A governor that climbs -/

namespace Governor

/-- The governor explores, and the levels it has measured have moved nothing. -/
structure Climbing (limit : ℕ) (g : Governor) : Prop where
  cfg : g.cfg = { maxConns := limit }
  ceiling : g.ceiling = limit
  pos : 0 < g.k
  phase : g.phase = .baseline ∨ g.phase = .ramp ∧ ∃ prevK, g.baseline = some (prevK, 0)

variable {g : Governor} {s : Sample} {r : Governor × Decision} {limit : ℕ}

theorem Climbing.measuring (h : g.Climbing limit) : g.phase = .baseline ∨ g.phase = .ramp :=
  h.phase.imp_right And.left

theorem undisturbed_of_quiet (hs : s.Quiet) : g.Undisturbed s where
  rate := hs.rate
  disk := fun h => absurd (h.1.symm.trans hs.disk) (by decide)
  errors := fun h => by
    have := h.1
    rw [hs.errors] at this
    omega

theorem Climbing.opens (h : g.Climbing limit) (hs : s.Quiet) (hw : g.window = none)
    (hwarm : g.changedAt + millis 400 ≤ s.now) :
    ∃ g', g.observe s = (g', .hold) ∧ g'.Climbing limit ∧ g'.k = g.k ∧
      g'.window = some ⟨s.now, s.bytesTotal⟩ := by
  refine ⟨{ g.noted s with window := some ⟨s.now, s.bytesTotal⟩ }, ?_, ?_, rfl, rfl⟩
  · rw [(observe_undisturbed (undisturbed_of_quiet hs)).1 h.measuring]
    refine measure_opens (g := g.noted s) hw ?_
    show g.cfg.warmup ≤ s.now - g.changedAt
    rw [h.cfg]
    exact Nat.le_sub_of_add_le' hwarm
  · exact ⟨h.cfg, h.ceiling, h.pos, h.phase⟩

theorem Grown.climbs (h : g.Grown s r) (hs : s.Quiet) (hdisk : g.recentBackpressure = false)
    (hcfg : g.cfg = { maxConns := limit }) (hceiling : g.ceiling = limit) (hpos : 0 < g.k)
    (hbase : ∃ prevK, g.baseline = some (prevK, 0)) (hroom : g.k < g.growthLimit s) :
    ∃ g', r = (g', .spawnTo g'.k) ∧ g'.Climbing limit ∧ g'.window = none ∧
      g'.changedAt = s.now ∧ g.k < g'.k ∧ g'.k ≤ g.growthLimit s := by
  cases h with
  | untaken htoken => exact absurd (htoken.symm.trans hs.token) Bool.false_ne_true
  | pressed hpressed => exact absurd (hdisk.symm.trans hpressed) Bool.false_ne_true
  | full reason hfull => omega
  | grows next _ _ hlt hle =>
    exact ⟨_, rfl, ⟨hcfg, hceiling, hpos.trans hlt, .inr ⟨rfl, hbase⟩⟩, rfl, rfl, hlt, hle⟩

theorem Climbing.closes (h : g.Climbing limit) {started : Nanos}
    (hw : g.window = some ⟨started, s.bytesTotal⟩) (hnow : s.now = started + millis 1200) :
    g.Closes s ∧ g.rateAt s = 0 := by
  have hat : g.windowAt s = ⟨started, s.bytesTotal⟩ := by rw [windowAt, hw, Option.getD_some]
  have helapsed : s.now - started = millis 1200 := by rw [hnow, Nat.add_sub_cancel_left]
  have hdwell : g.cfg.dwell = millis 1200 := by rw [h.cfg]
  refine ⟨⟨fun hwarm => absurd (hw.symm.trans hwarm.1) (by simp), ?_⟩, ?_⟩
  · rw [TooShort, hat, helapsed, Nat.sub_self]
    rintro (hmin | ⟨hslow, -⟩)
    · exact absurd hmin (by decide)
    · rw [effectiveDwell, if_pos (Or.inr rfl), hdwell] at hslow
      exact absurd hslow (lt_irrefl _)
  · rw [rateAt, hat, Nat.sub_self, Nat.cast_zero, zero_div]

theorem Climbing.not_resting (h : g.Climbing limit) : g.phase ≠ .hold ∧ g.phase ≠ .backOff := by
  rcases h.measuring with hp | hp <;> rw [hp] <;> decide

/-- A window in which nothing moved counts as a gain, and the governor grows. -/
theorem Climbing.climbs (h : g.Climbing limit) (hs : s.Quiet) {started : Nanos}
    (hw : g.window = some ⟨started, s.bytesTotal⟩) (hnow : s.now = started + millis 1200)
    (hroom : g.k < g.growthLimit s) :
    ∃ g', g.observe s = (g', .spawnTo g'.k) ∧ g'.Climbing limit ∧ g'.window = none ∧
      g'.changedAt = s.now ∧ g.k < g'.k ∧ g'.k ≤ g.growthLimit s := by
  have hu : g.Undisturbed s := undisturbed_of_quiet hs
  obtain ⟨hcloses, hrate⟩ := h.closes hw hnow
  have hbaseline : ∃ prevK, some (g.k, g.rateAt s) = some (prevK, (0 : ℚ)) := ⟨g.k, by rw [hrate]⟩
  have hobserved := observed s g
  generalize g.observe s = r at hobserved
  cases hobserved with
  | limited retryAfter hlimited => exact absurd (hlimited.symm.trans hu.rate) (by simp)
  | diskBound _ hdisk => exact absurd hdisk hu.disk
  | shed _ _ hburst => exact absurd hburst hu.errors
  | cooled _ hphase => exact absurd hphase h.not_resting.2
  | measuring w _ _ hopen => exact absurd hcloses hopen
  | first _ _ _ hr => exact hr.climbs hs hs.disk h.cfg h.ceiling h.pos hbaseline hroom
  | paid _ _ _ _ _ _ _ hr => exact hr.climbs hs hs.disk h.cfg h.ceiling h.pos hbaseline hroom
  | unpaid prevK prevRate _ _ hphase hbase hgain =>
    rcases h.phase with hp | ⟨-, p, hp⟩
    · exact absurd (hp.symm.trans hphase) (by decide)
    · -- the gain over a level that moved nothing is one
      obtain ⟨-, rfl⟩ := Prod.mk.inj (Option.some.inj (hbase.symm.trans hp))
      refine absurd ?_ hgain
      rw [gainOver, if_neg (lt_irrefl _), h.cfg]
      norm_num
  | settled _ hphase => exact absurd hphase h.not_resting.1
  | reprobed _ hr => exact absurd hr.settled h.not_resting.1

end Governor

/-! ### A download that does not move -/

namespace Drive

variable {cfg : DriveCfg} {s s' : Drive} {plan : Plan} {limit n : ℕ}

/-- `n` fresh workers that have not started, between two ticks. -/
structure Idle (limit n : ℕ) (plan : Plan) (s : Drive) : Prop where
  pc : s.pc = .select
  calm : s.cancelled = false
  shared : s.shared = ⟨plan, 0, []⟩
  lastErrors : s.lastErrors = 0
  workers : s.workers = List.replicate n Worker.new
  conns : s.conns = n
  gov : s.gov.Climbing limit
  k : s.gov.k = n

/-- The state after a whole tick. -/
def ticked (t : Nanos) (g : Governor) (d : Decision) (s : Drive) : Drive :=
  { carryOut d { s with
      fetched := s.workerBytes
      clock := t
      gov := g
      lastErrors := s.shared.errors
      pc := .acting d } with pc := .select }

theorem carryOut_keeps (d : Decision) (s : Drive) :
    (s.carryOut d).shared = s.shared ∧ (s.carryOut d).gov = s.gov := by
  cases d with
  | spawnTo k => exact ⟨spawnWorkers_shared, spawnWorkers_gov⟩
  | _ => exact ⟨rfl, rfl⟩

theorem ticked_gov (t : Nanos) (g : Governor) (d : Decision) (s : Drive) :
    (s.ticked t g d).gov = g := (carryOut_keeps d _).2

theorem ticked_clock (t : Nanos) (g : Governor) (d : Decision) (s : Drive) :
    (s.ticked t g d).clock = t := by
  cases d with
  | spawnTo k => exact spawnWorkers_clock
  | _ => rfl

/-- A whole tick, when there is enough work left for no endgame. -/
theorem reaches_ticked {t : Nanos} {g : Governor} {d : Decision} (hpc : s.pc = .select)
    (hclock : s.clock ≤ t) (hcalm : s.cancelled = false) (hadaptive : cfg.adaptive = true)
    (hobs : s.gov.observe (s.sample cfg t false) = (g, d))
    (hwork : minSegment * 2 ≤ s.shared.plan.outstanding) :
    (driveMachine cfg).Reaches s (s.ticked t g d) := by
  have h₁ : (driveMachine cfg).step s (.tick t false) = some { s with
      fetched := s.workerBytes
      clock := t
      gov := g
      lastErrors := s.shared.errors
      pc := .acting d } := by
    have h := step_tick hpc hclock hcalm hadaptive
    rw [hobs] at h
    exact h
  refine ((Machine.ReachesUnder.single trivial h₁).tail trivial (step_act rfl)).tail trivial
    (step_endgame rfl ?_)
  rw [(carryOut_keeps d _).1, (carryOut_keeps d _).2]
  dsimp only
  rw [Governor.endgameTarget, if_neg (by omega), if_neg (by omega)]

theorem Idle.quiet (h : Idle limit n plan s) (t : Nanos) : (s.sample cfg t false).Quiet where
  errors := by
    show (s.shared.errors - s.lastErrors) % 2 ^ 32 = 0
    rw [h.shared, h.lastErrors]
    rfl
  rate := rfl
  disk := rfl
  token := rfl

theorem Idle.growthLimit (h : Idle limit n plan s) (t : Nanos) :
    s.gov.growthLimit (s.sample cfg t false) = min limit plan.usefulWorkers := by
  show min (min s.gov.ceiling s.gov.cfg.maxConns)
    (Governor.maxByWork s.shared.plan.outstanding) = _
  rw [h.gov.ceiling, h.gov.cfg, h.shared, min_self]
  rfl

theorem Idle.ticked_hold (h : Idle limit n plan s) (t : Nanos) {g : Governor}
    (hg : g.Climbing limit) (hk : g.k = s.gov.k) : Idle limit n plan (s.ticked t g .hold) where
  pc := rfl
  calm := h.calm
  shared := h.shared
  lastErrors := congrArg Shared.errors h.shared
  workers := h.workers
  conns := h.conns
  gov := hg
  k := hk.trans h.k

theorem Idle.ticked_spawn (h : Idle limit n plan s) (t : Nanos) {g : Governor}
    (hg : g.Climbing limit) (hlt : n < g.k) (hle : g.k ≤ plan.usefulWorkers) :
    Idle limit g.k plan (s.ticked t g (.spawnTo g.k)) := by
  have hspawn : min g.k s.shared.plan.usefulWorkers - s.conns = g.k - n := by
    rw [h.shared, h.conns, min_eq_left hle]
  unfold ticked carryOut
  dsimp only
  rw [hspawn]
  refine ⟨rfl, ?_, ?_, ?_, ?_, ?_, ?_, ?_⟩
  · exact spawnWorkers_cancelled.trans h.calm
  · exact spawnWorkers_shared.trans h.shared
  · exact spawnWorkers_lastErrors.trans (congrArg Shared.errors h.shared)
  · refine spawnWorkers_workers.trans ?_
    dsimp only
    rw [h.workers, ← List.replicate_add, Nat.add_sub_cancel' hlt.le]
  · refine spawnWorkers_conns.trans ?_
    dsimp only
    rw [h.conns, Nat.add_sub_cancel' hlt.le]
  · rw [spawnWorkers_gov]
    exact hg
  · rw [spawnWorkers_gov]

/-- No window is open, and the last change lies in the past. -/
def Fresh (s : Drive) : Prop := s.gov.window = none ∧ s.gov.changedAt ≤ s.clock

theorem Idle.climbs (h : Idle limit n plan s) (hfresh : s.Fresh) (hadaptive : cfg.adaptive = true)
    (hroom : n < min limit plan.usefulWorkers) :
    ∃ n' s', n < n' ∧ n' ≤ min limit plan.usefulWorkers ∧ (driveMachine cfg).Reaches s s' ∧
      Idle limit n' plan s' ∧ s'.Fresh := by
  have hpos : 0 < n := h.k ▸ h.gov.pos
  have hwork : minSegment * 2 ≤ plan.outstanding := by
    have huseful : 2 ≤ max (plan.outstanding / minSegment) 1 :=
      Nat.lt_of_le_of_lt hpos (hroom.trans_le (min_le_right _ _))
    have hdiv : 2 ≤ plan.outstanding / minSegment := by omega
    exact (Nat.mul_comm _ _).trans_le ((Nat.le_div_iff_mul_le (by decide)).1 hdiv)
  -- the first tick opens the window
  obtain ⟨g₁, hobs₁, hg₁, hk₁, hw₁⟩ := h.gov.opens (h.quiet (s.clock + millis 400))
    hfresh.1 (Nat.add_le_add_right hfresh.2 _)
  have r₁ : (driveMachine cfg).Reaches s (s.ticked (s.clock + millis 400) g₁ .hold) :=
    reaches_ticked h.pc (Nat.le_add_right _ _) h.calm hadaptive hobs₁
      (by rw [h.shared]; exact hwork)
  have h₁ := h.ticked_hold (s.clock + millis 400) hg₁ hk₁
  have hw : (s.ticked (s.clock + millis 400) g₁ .hold).gov.window =
      some ⟨s.clock + millis 400, cfg.initialBytes + s.workerBytes⟩ := hw₁
  have hbytes : (s.ticked (s.clock + millis 400) g₁ .hold).workerBytes = s.workerBytes := rfl
  have hclock : (s.ticked (s.clock + millis 400) g₁ .hold).clock = s.clock + millis 400 := rfl
  generalize s.ticked (s.clock + millis 400) g₁ .hold = s₁ at r₁ h₁ hw hbytes hclock
  -- the second one closes it
  obtain ⟨g₂, hobs₂, hg₂, hw₂, hchanged₂, hlt, hle⟩ :=
    h₁.gov.climbs (h₁.quiet (s₁.clock + millis 1200))
      (by rw [hw, ← hbytes]; rfl) (congrArg (· + millis 1200) hclock)
      (by rw [h₁.growthLimit, h₁.k]; exact hroom)
  rw [h₁.growthLimit] at hle
  rw [h₁.k] at hlt
  have r₂ : (driveMachine cfg).Reaches s₁
      (s₁.ticked (s₁.clock + millis 1200) g₂ (.spawnTo g₂.k)) :=
    reaches_ticked h₁.pc (Nat.le_add_right _ _) h₁.calm hadaptive hobs₂
      (by rw [h₁.shared]; exact hwork)
  refine ⟨g₂.k, _, hlt, hle, r₁.trans r₂,
    h₁.ticked_spawn _ hg₂ hlt (hle.trans (min_le_right _ _)), ?_, ?_⟩
  · rw [ticked_gov]
    exact hw₂
  · rw [ticked_gov, ticked_clock]
    exact hchanged₂.le

theorem Idle.live (h : Idle limit n plan s) : s.live = n := by
  rw [Drive.live, h.workers, List.filter_replicate_of_pos rfl, List.length_replicate]

end Drive

/-! ### No download has more workers -/

namespace Worker

variable {ctx : WorkerCtx} {cancelled retire : Bool} {sh sh' : Shared} {w w' : Worker}

theorem fail_ne_joined (id attempt : ℕ) (error : ErrorClass) (sh : Shared) (w : Worker) :
    (w.fail ctx id attempt error sh).2.phase ≠ .joined := by
  rcases fail_phase ctx id attempt error sh w with h | h <;> rw [h] <;> simp

theorem endBody_ne_joined (c : ClaimSlot) (attempt : ℕ) (sh : Shared) (w : Worker) :
    (w.endBody ctx retire c attempt sh).2.phase ≠ .joined := by
  rcases endBody_cases ctx retire c attempt sh w with ⟨-, -, -, h⟩ | ⟨-, h⟩ <;> rw [h]
  · exact fail_ne_joined _ _ _ _ _
  · simp

theorem Stepped.ne_joined {e : WorkerEvent} {r : Shared × Worker}
    (h : w.Stepped ctx cancelled retire sh e r) : r.2.phase ≠ .joined := by
  cases h with
  | builds ok => cases ok <;> simp
  | checks => cases cancelled <;> cases retire <;> simp
  | refuses => exact fail_ne_joined _ _ _ _ _
  | stops => exact fail_ne_joined _ _ _ _ _
  | breaks => exact fail_ne_joined _ _ _ _ _
  | abandoned => exact fail_ne_joined _ _ _ _ _
  | ends => exact endBody_ne_joined _ _ _ _
  | shrunk => exact endBody_ne_joined _ _ _ _
  | satisfied => exact endBody_ne_joined _ _ _ _
  | releases id exit => cases exit <;> simp
  | _ => simp

theorem step_ne_joined {e : WorkerEvent}
    (h : w.step ctx cancelled retire sh e = some (sh', w')) : w'.phase ≠ .joined :=
  (stepped h).ne_joined

end Worker

namespace Drive

variable {cfg : DriveCfg} {s s' : Drive} {peak limit : ℕ}

/-- The number of workers whose exit the driver has not seen. -/
def present (s : Drive) : ℕ := s.workers.countP fun w => decide (w.phase ≠ .joined)

/-- The invariant: the driver counts its workers right, and there are no more than `peak`. -/
structure Peaked (cfg : DriveCfg) (peak limit : ℕ) (s : Drive) : Prop where
  present : s.present = s.conns
  le : s.conns ≤ peak
  maxConns : s.gov.cfg.maxConns = limit
  pos : 0 < s.gov.k
  asked : ∀ d, s.pc = .acting d → cfg.adaptive = true ∧ ∀ n, d = .spawnTo n → n ≤ limit

theorem Peaked.congr (h : s.Peaked cfg peak limit) (hworkers : s'.workers = s.workers)
    (hconns : s'.conns = s.conns) (hgov : s'.gov = s.gov)
    (hpc : ∀ d, s'.pc = .acting d → s.pc = .acting d) : s'.Peaked cfg peak limit where
  present := by rw [Drive.present, hworkers, hconns]; exact h.present
  le := hconns.trans_le h.le
  maxConns := by rw [hgov]; exact h.maxConns
  pos := by rw [hgov]; exact h.pos
  asked := fun d hd => h.asked d (hpc d hd)

theorem Peaked.spawn (h : s.Peaked cfg peak limit) {n : ℕ} (hn : n ≤ limit)
    (hpeak : min limit s.shared.plan.usefulWorkers ≤ peak) :
    (spawnWorkers (min n s.shared.plan.usefulWorkers - s.conns) s).Peaked cfg peak limit := by
  refine ⟨?_, ?_, ?_, ?_, ?_⟩
  · rw [Drive.present, spawnWorkers_workers, List.countP_append, spawnWorkers_conns, ← h.present,
      Drive.present]
    rw [List.countP_replicate, if_pos (by decide)]
  · rw [spawnWorkers_conns]
    have := h.le
    omega
  · rw [spawnWorkers_gov]
    exact h.maxConns
  · rw [spawnWorkers_gov]
    exact h.pos
  · rw [spawnWorkers_pc]
    exact h.asked

theorem Peaked.step (h : s.Peaked cfg peak limit)
    (hpeak : cfg.adaptive = true → min limit s.shared.plan.usefulWorkers ≤ peak) {e : DriveEvent}
    (hs : s.step cfg e = some s') : s'.Peaked cfg peak limit := by
  cases stepped hs with
  | moves i e w sh w' hpc hw hst =>
    obtain ⟨hi, hwi⟩ := List.getElem?_eq_some_iff.1 hw
    refine ⟨?_, h.le, h.maxConns, h.pos, h.asked⟩
    have hne : w.phase ≠ .joined := fun hj => by
      rw [Worker.step_joined hj] at hst
      cases hst
    have hpos : 0 < s.present := List.countP_pos_iff.2 ⟨w, List.mem_of_getElem? hw, by simpa⟩
    show (s.workers.set i w').countP _ = s.conns
    rw [List.countP_set hi, hwi, if_pos (by simpa), if_pos (by
      simpa using Worker.step_ne_joined hst), ← h.present]
    exact Nat.sub_add_cancel hpos
  | joins i w exit hpc hw hphase =>
    obtain ⟨-, hworkers, -, hconns, hgov, hpc'⟩ := onJoin_spec i w exit s
    obtain ⟨hi, hwi⟩ := List.getElem?_eq_some_iff.1 hw
    refine ⟨?_, ?_, by rw [hgov]; exact h.maxConns, by rw [hgov]; exact h.pos, fun d hd => ?_⟩
    · rw [Drive.present, hworkers, hconns, List.countP_set hi, hwi, if_pos (by simp [hphase]),
        if_neg (by simp), ← h.present]
      rfl
    · rw [hconns]
      exact (Nat.sub_le _ _).trans h.le
    · rw [hpc', hpc] at hd
      split_ifs at hd
  | samples now pressed hpc hcancelled hadaptive =>
    have hsound := Governor.observe_sound (s := s.sample cfg now pressed) h.pos
    refine ⟨h.present, h.le, ?_, hsound.pos, fun d hd => ⟨hadaptive, fun n hn => ?_⟩⟩
    · exact (congrArg GovernorConfig.maxConns hsound.cfg).trans h.maxConns
    · obtain rfl := DrivePc.acting.inj hd
      exact h.maxConns ▸ (hsound.spawn n hn).2.1
  | spawns n hpc =>
    obtain ⟨hadaptive, hasked⟩ := h.asked _ hpc
    have hspawned := h.spawn (hasked n rfl) (hpeak hadaptive)
    exact hspawned.congr rfl rfl rfl fun _ hd => by cases hd
  | cancels => exact h.congr rfl rfl rfl fun _ hd => hd
  | ticks => exact h.congr rfl rfl rfl fun _ hd => hd
  -- the rest asks for nobody
  | quits => exact h.congr rfl rfl rfl fun _ hd => by cases hd
  | retires => exact h.congr rfl rfl rfl fun _ hd => by cases hd
  | holds => exact h.congr rfl rfl rfl fun _ hd => by cases hd
  | thins => exact h.congr rfl rfl rfl fun _ hd => by cases hd
  | goesOn => exact h.congr rfl rfl rfl fun _ hd => by cases hd
  | leaves => exact h.congr rfl rfl rfl fun _ hd => by cases hd

end Drive

/-! ### The caps of a download -/

section Caps

variable {settings : Settings} {req : DownloadRequest} {pr : ProbeResult} {available : ℕ}
  {existing : Option File} {p : Prepared}

/-- The most workers that a download can have. -/
def Prepared.peak (p : Prepared) : ℕ :=
  if p.cfg.adaptive then max p.k0 (min p.govCfg.maxConns p.plan.usefulWorkers) else p.k0

end Caps

end SwiftLoad
