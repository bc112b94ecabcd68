import SwiftLoad.Task.Download

/-!
# Downloads that cannot be split

A download without working ranges, or of unknown size, starts with one worker (`initial_conns`).
Nothing after that looks at the range support again: the governor grows as for any other download.

* `Drive.SingleStream` : at most one worker runs, and no claim is about to be stolen.
* `Alone` : the invariant when the governor may not grow, or there is too little work.
* `single_stream_iff` : **a download that cannot be split stays a single stream exactly when the
  connection limit is one or less than two segments are missing.**
-/

namespace SwiftLoad

open Ranges

namespace Drive

/-- The number of running workers. -/
def live (s : Drive) : ℕ := (s.workers.filter (·.phase.running)).length

/-- At most one worker runs, and a worker that asks for work when nothing is unclaimed gets none. -/
structure SingleStream (s : Drive) : Prop where
  live : s.live ≤ 1
  noSteal : ∀ w ∈ s.workers, w.phase = .asking → s.shared.plan.free = [] →
    s.shared.plan.request.2 = .exhausted

end Drive

/-! ### One worker -/

/-- A plan that nobody holds a claim of grants only what is unclaimed. -/
theorem Plan.request_of_no_slots {p : Plan} (hslots : p.slots = []) (hfree : p.free = []) :
    p.request.2 = .exhausted := by
  rcases p.request_cases with ⟨idx, start, len, hidx, -, -⟩ | ⟨-, -, hr⟩ | ⟨-, victim, hv, -⟩
  · rw [hfree] at hidx
    simp at hidx
  · rw [hr]
  · have := (Plan.mem_activeSlots.1 hv).1
    rw [hslots] at this
    simp at this

/-- The invariant of a lone worker, `limit` being the connection limit of the governor. -/
structure Alone (limit : ℕ) (s : Drive) : Prop where
  workers : ∃ w, s.workers = [w]
  conns : s.conns = 1 ∨ s.pc = .leaving ∨ s.pc = .left
  maxConns : s.gov.cfg.maxConns = limit
  pos : 0 < s.gov.k
  asked : ∀ n, s.pc = .acting (.spawnTo n) → n ≤ limit

section Alone

variable {cfg : DriveCfg} {s s' : Drive} {limit : ℕ}

theorem Alone.of_eq (h : Alone limit s) (hworkers : s'.workers = s.workers)
    (hconns : s'.conns = s.conns) (hgov : s'.gov = s.gov) (hpc : s'.pc = s.pc) :
    Alone limit s' where
  workers := hworkers ▸ h.workers
  conns := by rw [hconns, hpc]; exact h.conns
  maxConns := hgov ▸ h.maxConns
  pos := hgov ▸ h.pos
  asked := hpc ▸ h.asked

theorem Alone.conns_eq (h : Alone limit s) (hpc : s.pc ≠ .leaving ∧ s.pc ≠ .left) : s.conns = 1 :=
  h.conns.resolve_right (not_or.2 hpc)

theorem Alone.move (h : Alone limit s) (hworkers : s'.workers = s.workers)
    (hconns : s'.conns = s.conns) (hgov : s'.gov = s.gov) (hpc : s.pc ≠ .leaving ∧ s.pc ≠ .left)
    (hasked : ∀ d, s'.pc ≠ .acting d) : Alone limit s' where
  workers := hworkers ▸ h.workers
  conns := Or.inl (hconns.trans (h.conns_eq hpc))
  maxConns := hgov ▸ h.maxConns
  pos := hgov ▸ h.pos
  asked := fun _ hn => absurd hn (hasked _)

theorem Alone.leave (h : Alone limit s) (hworkers : s'.workers = s.workers)
    (hgov : s'.gov = s.gov) (hover : s'.pc = .leaving ∨ s'.pc = .left) : Alone limit s' where
  workers := hworkers ▸ h.workers
  conns := Or.inr hover
  maxConns := hgov ▸ h.maxConns
  pos := hgov ▸ h.pos
  asked := fun n hn => by rw [hn] at hover; simp at hover

theorem Alone.step (h : Alone limit s) (hcond : limit ≤ 1 ∨ s.shared.plan.usefulWorkers ≤ 1)
    {e : DriveEvent} (hs : s.step cfg e = some s') : Alone limit s' := by
  obtain ⟨w₀, hw₀⟩ := h.workers
  cases Drive.stepped hs with
  | moves i e w sh w' hpc hw hst =>
    refine ⟨?_, h.conns, h.maxConns, h.pos, h.asked⟩
    rw [hw₀] at hw ⊢
    obtain ⟨hi, -⟩ := List.getElem?_eq_some_iff.1 hw
    obtain rfl : i = 0 := by simpa using hi
    exact ⟨w', rfl⟩
  | joins i w exit hpc hw hphase =>
    obtain ⟨-, hworkers, -, -, hgov, hpc⟩ := Drive.onJoin_spec i w exit s
    rw [hw₀] at hw hworkers hpc
    obtain ⟨hi, -⟩ := List.getElem?_eq_some_iff.1 hw
    obtain rfl : i = 0 := by simpa using hi
    -- the only worker is gone
    have hleaving : (s.onJoin 0 w exit).pc = .leaving := by rw [hpc]; simp
    refine ⟨⟨_, hworkers⟩, Or.inr (Or.inl hleaving), hgov ▸ h.maxConns, hgov ▸ h.pos, ?_⟩
    intro n hn
    rw [hleaving] at hn
    simp at hn
  | cancels => exact h.of_eq rfl rfl rfl rfl
  | quits => exact h.leave rfl rfl (Or.inl rfl)
  | samples now pressed hpc =>
    have hsound := Governor.observe_sound (s := s.sample cfg now pressed) h.pos
    refine ⟨h.workers, Or.inl (h.conns_eq (by simp [hpc])), ?_, hsound.pos, ?_⟩
    · exact (congrArg GovernorConfig.maxConns hsound.cfg).trans h.maxConns
    · intro n hn
      exact h.maxConns ▸ (hsound.spawn n (DrivePc.acting.inj hn)).2.1
  | ticks => exact h.of_eq rfl rfl rfl rfl
  | spawns n hpc =>
    have hconns := h.conns_eq (by simp [hpc])
    -- one is the limit, or all that the work can occupy
    have hn := h.asked n hpc
    have hzero : min n s.shared.plan.usefulWorkers - s.conns = 0 := by omega
    rw [hzero]
    exact h.move rfl rfl rfl (by simp [hpc]) (by simp)
  | retires d target hpc => exact h.move rfl rfl rfl (by simp [hpc]) (by simp)
  | holds hpc => exact h.move rfl rfl rfl (by simp [hpc]) (by simp)
  | thins target hpc => exact h.move rfl rfl rfl (by simp [hpc]) (by simp)
  | goesOn hpc => exact h.move rfl rfl rfl (by simp [hpc]) (by simp)
  | leaves => exact h.leave rfl rfl (Or.inr rfl)

theorem Alone.singleStream (h : Alone limit s) (ho : s.Owned) : s.SingleStream := by
  obtain ⟨w₀, hw₀⟩ := h.workers
  refine ⟨?_, fun w hw hphase hfree => Plan.request_of_no_slots ?_ hfree⟩
  · rw [Drive.live, hw₀]
    exact List.length_filter_le _ _
  · -- the one who asks holds nothing, and nobody else could
    rw [hw₀, List.mem_singleton] at hw
    subst hw
    refine List.eq_nil_iff_forall_not_mem.2 ?_
    intro c hc
    obtain ⟨i, hi⟩ := ho.held c hc
    obtain ⟨w', hw', hslot⟩ := Option.bind_eq_some_iff.1 hi
    rw [hw₀] at hw'
    obtain rfl : w' = w := by simpa using List.mem_of_getElem? hw'
    rw [hphase] at hslot
    simp [WorkerPhase.slot?] at hslot

end Alone

/-! ### The second worker -/

namespace Governor

variable {g : Governor} {s : Sample}

theorem observe_baseline (hrate : s.rateLimited = none) (hdisk : s.diskBackpressure = false)
    (herr : s.errorsSinceLast = 0) (hphase : g.phase = .baseline) :
    g.observe s = (({ g with lastBytes := s.bytesTotal } : Governor).noteBackpressure
      false).measure s := by
  simp [observe, hrate, hdisk, herr, noteBackpressure, hphase]

theorem measure_opens (hwindow : g.window = none) (hwarm : g.cfg.warmup ≤ s.now - g.changedAt) :
    g.measure s = ({ g with window := some ⟨s.now, s.bytesTotal⟩ }, .hold) := by
  have hopen : ¬(g.window = none ∧ s.bytesTotal - g.bytesAtChange < warmupBytesPerConn * g.k ∧
      s.now - g.changedAt < g.cfg.warmup) := fun h => absurd h.2.2 (Nat.not_lt.2 hwarm)
  simp only [measure]
  rw [if_neg hopen, if_pos]
  · simp [hwindow]
  · left
    simp [hwindow, minSample, millis]

/-- A window in which nothing moved closes after the dwell time, and the governor tries to grow. -/
theorem measure_closes (started : Nanos) (hphase : g.phase = .baseline)
    (hwindow : g.window = some ⟨started, s.bytesTotal⟩) (hmin : minSample ≤ s.now - started)
    (hdwell : g.cfg.dwell ≤ s.now - started) :
    g.measure s = ({ g.closeWindow 0 s.now with baseline := some (g.k, 0), phase := .ramp } :
      Governor).tryGrow s := by
  have hslow : ∀ g' : Governor, g'.cfg = g.cfg →
      ¬(((s.now - started : ℕ) : ℚ) < g'.effectiveDwell (s.now - started) 0 s.remainingBytes) := by
    intro g' hcfg
    rw [effectiveDwell, if_pos (Or.inr rfl), hcfg]
    exact Nat.cast_lt.not.2 (Nat.not_lt.2 hdwell)
  have hopen : ¬(g.window = none ∧ s.bytesTotal - g.bytesAtChange < warmupBytesPerConn * g.k ∧
      s.now - g.changedAt < g.cfg.warmup) := fun h => by rw [hwindow] at h; simp at h
  simp only [measure]
  rw [if_neg hopen, hwindow, Option.getD_some, Nat.sub_self, if_neg]
  · simp only [Nat.cast_zero, zero_div]
    rw [show ({ g with window := some ⟨started, s.bytesTotal⟩ } : Governor).closeWindow 0 s.now =
      g.closeWindow 0 s.now from rfl, show (g.closeWindow 0 s.now).phase = .baseline from hphase]
  · rintro (h | h)
    · exact absurd h (Nat.not_lt.2 hmin)
    · exact hslow _ rfl h.1

theorem tryGrow_spawns (hprobe : s.probeToken = true) (hpress : g.recentBackpressure = false)
    (hk : 0 < g.k) (hceiling : g.k * 2 ≤ g.ceiling) (hmax : g.k * 2 ≤ g.cfg.maxConns)
    (hwork : g.k * 2 ≤ maxByWork s.remainingBytes) : (g.tryGrow s).2 = .spawnTo (g.k * 2) := by
  have hnext : min (g.k * 2) (min (min g.ceiling g.cfg.maxConns) (maxByWork s.remainingBytes)) =
      g.k * 2 := by omega
  simp only [tryGrow, hprobe, hpress]
  rw [if_neg (by simp), if_neg (by simp), hnext, if_neg (by omega)]

end Governor

namespace Drive

variable {cfg : DriveCfg} {s : Drive}

theorem step_tick {t : Nanos} (hpc : s.pc = .select) (hclock : s.clock ≤ t)
    (hcancelled : s.cancelled = false) (hadaptive : cfg.adaptive = true) :
    (driveMachine cfg).step s (.tick t false) = some { s with
      fetched := s.workerBytes
      clock := t
      gov := (s.gov.observe (s.sample cfg t false)).1
      lastErrors := s.shared.errors
      pc := .acting (s.gov.observe (s.sample cfg t false)).2 } := by
  simp [driveMachine, step, onTick, hpc, hclock, hcancelled, hadaptive]

theorem step_act {d : Decision} (hpc : s.pc = .acting d) :
    (driveMachine cfg).step s .act = some { s.carryOut d with pc := .endgame } := by
  simp [driveMachine, step, hpc]

theorem step_endgame (hpc : s.pc = .endgame)
    (htarget : s.gov.endgameTarget s.shared.plan.outstanding = none) :
    (driveMachine cfg).step s .endgame = some { s with pc := .select } := by
  simp [driveMachine, step, hpc, htarget]

/-- One worker that has moved nothing for 1.6 seconds is joined by a second one. -/
theorem second_worker {plan : Plan} {limit : ℕ} (now : Nanos) (hadaptive : cfg.adaptive = true)
    (hlimit : 2 ≤ limit) (hwork : minSegment * 2 ≤ plan.outstanding) :
    ∃ s, (driveMachine cfg).Reaches (start plan { maxConns := limit } 1 now) s ∧ s.live = 2 := by
  let s₀ := start plan { maxConns := limit } 1 now
  let t₁ := now + millis 400
  let t₂ := t₁ + millis 1200
  -- the first tick opens the window
  let g₁ : Governor := { ({ s₀.gov with lastBytes := (s₀.sample cfg t₁ false).bytesTotal } :
    Governor).noteBackpressure false with window := some ⟨t₁, (s₀.sample cfg t₁ false).bytesTotal⟩ }
  have hg₁ : s₀.gov.observe (s₀.sample cfg t₁ false) = (g₁, .hold) := by
    rw [Governor.observe_baseline rfl rfl rfl rfl]
    exact Governor.measure_opens rfl (Nat.le_sub_of_add_le' le_rfl)
  let s₁ : Drive := { s₀ with
    fetched := s₀.workerBytes, clock := t₁, gov := g₁, lastErrors := 0, pc := .acting .hold }
  have h₁ : (driveMachine cfg).step s₀ (.tick t₁ false) = some s₁ := by
    have h := step_tick (t := t₁) (show s₀.pc = .select from rfl) (Nat.le_add_right _ _) rfl
      hadaptive
    rw [hg₁] at h
    exact h
  have h₂ : (driveMachine cfg).step s₁ .act = some { s₁ with pc := .endgame } := rfl
  have hendgame : g₁.endgameTarget plan.outstanding = none := by
    rw [Governor.endgameTarget, if_neg (by omega), if_neg (by omega)]
  have h₃ : (driveMachine cfg).step { s₁ with pc := .endgame } .endgame =
      some { s₁ with pc := .select } := step_endgame rfl hendgame
  -- the second tick closes it
  let s₃ : Drive := { s₁ with pc := .select }
  have hg₃ : (s₃.gov.observe (s₃.sample cfg t₂ false)).2 = .spawnTo 2 := by
    rw [Governor.observe_baseline rfl rfl rfl rfl]
    have helapsed : t₂ - t₁ = millis 1200 := Nat.add_sub_cancel_left _ _
    have hclose := Governor.measure_closes (g := ({ g₁ with
      lastBytes := (s₃.sample cfg t₂ false).bytesTotal } : Governor).noteBackpressure false)
      (s := s₃.sample cfg t₂ false) t₁ rfl rfl
      (show minSample ≤ t₂ - t₁ by rw [helapsed]; decide)
      (show millis 1200 ≤ t₂ - t₁ by rw [helapsed])
    show (Governor.measure _ _).2 = _
    rw [hclose]
    refine Governor.tryGrow_spawns rfl rfl Nat.one_pos hlimit hlimit ?_
    show 2 ≤ max (plan.outstanding / minSegment) 1
    exact le_max_of_le_left ((Nat.le_div_iff_mul_le (by decide)).2 (by omega))
  have h₄ := step_tick (t := t₂) (show s₃.pc = .select from rfl) (Nat.le_add_right _ _) rfl
    hadaptive
  rw [hg₃] at h₄
  obtain ⟨s₄, h₄, hpc, hworkers, hplan, hconns⟩ :
      ∃ s₄, (driveMachine cfg).step s₃ (.tick t₂ false) = some s₄ ∧
      s₄.pc = .acting (.spawnTo 2) ∧ s₄.workers = s₀.workers ∧ s₄.shared.plan = plan ∧
      s₄.conns = 1 := ⟨_, h₄, rfl, rfl, rfl, rfl⟩
  have huseful : 2 ≤ plan.usefulWorkers :=
    le_max_of_le_left ((Nat.le_div_iff_mul_le (by decide)).2 (by omega))
  have hone : min 2 s₄.shared.plan.usefulWorkers - s₄.conns = 1 := by
    rw [hplan, hconns]
    omega
  have r₁ : (driveMachine cfg).Reaches s₀ s₁ := .single trivial h₁
  have r₂ : (driveMachine cfg).Reaches s₀ { s₁ with pc := .endgame } := r₁.tail trivial h₂
  have r₃ : (driveMachine cfg).Reaches s₀ s₃ := r₂.tail trivial h₃
  have r₄ : (driveMachine cfg).Reaches s₀ s₄ := r₃.tail trivial h₄
  refine ⟨_, r₄.tail trivial (step_act hpc), ?_⟩
  show ((spawnWorkers (min 2 s₄.shared.plan.usefulWorkers - s₄.conns) s₄).workers.filter
    (·.phase.running)).length = 2
  rw [hone, spawnWorkers_workers, hworkers]
  simp only [s₀, start, spawnWorkers_workers]
  rfl

end Drive

section Unsplittable

variable {settings : Settings} {req : DownloadRequest} {pr : ProbeResult} {existing : Option File}

theorem outstanding_le_start (hc : req.completed.Ordered) {now : Nanos} {s : Drive}
    (hs : (driveMachine (setUp settings req pr existing).cfg).Reaches
      ((setUp settings req pr existing).start now) s) :
    s.shared.plan.outstanding ≤ (setUp settings req pr existing).plan.outstanding := by
  have hord : (setUp settings req pr existing).completed.Ordered :=
    ordered_reconcile hc existing (openPart existing pr.totalSize) pr.totalSize
  have hlinked : s.Linked (cover
      (Plan.new pr.totalSize (setUp settings req pr existing).completed).ranges) :=
    Drive.linked hord hs
  have hvalid := Plan.valid_new pr.totalSize hord
  refine (hlinked.outstanding_le (cover_finite _)).trans_eq ?_
  show _ = ((Plan.new pr.totalSize (setUp settings req pr existing).completed).seed
    (setUp settings req pr existing).k0).outstanding
  rw [(hvalid.seed _).outstanding_eq, hvalid.cover_seed]

/-- **Single streams.**  Of a download that cannot be split, no run ever has a second worker or
steals from a claim, exactly when the connection limit is one or less than two segments are
missing when the workers start. -/
theorem single_stream_iff (hc : req.completed.Ordered)
    (hpr : pr.isResumable = false ∨ pr.totalSize = none)
    (hadaptive : (setUp settings req pr existing).cfg.adaptive = true) (now : Nanos) :
    (∀ s, (driveMachine (setUp settings req pr existing).cfg).Reaches
      ((setUp settings req pr existing).start now) s → s.SingleStream) ↔
    settings.maxConnsPerDownload ≤ 1 ∨
      (setUp settings req pr existing).plan.outstanding < minSegment * 2 := by
  have hord : (setUp settings req pr existing).completed.Ordered :=
    ordered_reconcile hc existing (openPart existing pr.totalSize) pr.totalSize
  have hmax : req.maxConns = none := by
    have : (settings.adaptiveConcurrency && req.maxConns.isNone) = true := hadaptive
    simpa using (Bool.and_eq_true_iff.1 this).2
  have hk0 : (setUp settings req pr existing).k0 = 1 := initialConns_eq_one hpr _ _ _
  have hplan : (setUp settings req pr existing).plan =
      Plan.new pr.totalSize (setUp settings req pr existing).completed := by
    show (Plan.new _ _).seed (setUp settings req pr existing).k0 = _
    rw [hk0]
    exact if_pos (Or.inl le_rfl)
  have hgov : (setUp settings req pr existing).govCfg =
      { maxConns := min settings.maxConnsPerDownload 32 } := by
    simp [setUp, hmax]
  have hstart : (setUp settings req pr existing).start now = Drive.start
      (setUp settings req pr existing).plan { maxConns := min settings.maxConnsPerDownload 32 }
        1 now := by
    rw [Prepared.start, hk0, hgov]
  constructor
  · intro h
    by_contra hcond
    push Not at hcond
    have hlimit : 2 ≤ min settings.maxConnsPerDownload 32 := by omega
    obtain ⟨s, hs, hlive⟩ := Drive.second_worker now hadaptive hlimit hcond.2
    have := (h s (hstart ▸ hs)).live
    omega
  · intro hcond s hs
    have halone : Alone (min settings.maxConnsPerDownload 32) s := by
      refine hs.invariant_of_reached ?_ fun t e t' hreached ht _ hst => ht.step ?_ hst
      · rw [hstart]
        refine ⟨⟨Worker.new, by simp [Drive.start]⟩, Or.inl (by simp [Drive.start]), ?_, ?_, ?_⟩
        · simp [Drive.start, Governor.new]
        · simp [Drive.start, Governor.new]
        · simp [Drive.start]
      · rcases hcond with hcond | hcond
        · exact Or.inl (by omega)
        · have hle := outstanding_le_start hc hreached
          refine Or.inr (max_le ?_ le_rfl)
          exact Nat.le_of_lt_succ ((Nat.div_lt_iff_lt_mul (by decide)).2 (by omega))
    exact halone.singleStream (Drive.linked hord hs).owned

/-- The two bytes from a server without ranges stay a single stream. -/
theorem single_stream_small :
    (setUp {} { destDir := [] } { twoBytes with rangeSupport := .unsupported }
        none).plan.outstanding = 2 ∧
      ∀ s, (driveMachine (setUp {} { destDir := [] }
          { twoBytes with rangeSupport := .unsupported } none).cfg).Reaches
            ((setUp {} { destDir := [] } { twoBytes with rangeSupport := .unsupported }
              none).start 0) s → s.SingleStream :=
  ⟨by decide, (single_stream_iff RangeSet.ordered_new (Or.inl rfl) rfl 0).2 (Or.inr (by decide))⟩

/-- Four megabytes from a server without ranges: a second worker is spawned. -/
theorem single_stream_split :
    ∃ s, (driveMachine (setUp {} { destDir := [] }
        { twoBytes with rangeSupport := .unsupported, totalSize := some (minSegment * 2) }
          none).cfg).Reaches ((setUp {} { destDir := [] }
            { twoBytes with rangeSupport := .unsupported, totalSize := some (minSegment * 2) }
              none).start 0) s ∧ s.live = 2 :=
  Drive.second_worker 0 rfl (by decide) (by decide)

end Unsplittable

end SwiftLoad
