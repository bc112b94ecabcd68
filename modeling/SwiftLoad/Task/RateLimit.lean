import SwiftLoad.Task.Drive
import SwiftLoad.Task.GovernorSafety

/-!
# Rate limits

A worker that meets a rate limit raises the error count, and the driver tells the governor how far
the count has risen since the last tick.  It never tells it of the rate limit itself: the branch of
the governor that halves the connections is not reached from here, and what a rate limit leads to
is decided by the branches for errors and for the throughput.

* `Drive.tick_lowers_iff` : when a tick lowers the target.
* `Watched` : a run of the driver, watched for rate limits; `Watched.exists_watched` : every run can
  be watched.
* `Watched.rate_limit_answered` : **when a rate limit is answered with fewer connections.**
-/

namespace SwiftLoad

namespace Governor

variable {g : Governor} {s : Sample}

/-- The governor asks for no more than `c` connections: neither does a re-probe fall due that would
go above, nor does an adopted level. -/
def StaysWithin (c : ℕ) (s : Sample) (g : Governor) : Prop :=
  (g.Undisturbed s → g.Reprobes s → min (g.k + 2) (g.growthLimit s) ≤ c) ∧
    (g.Doubles s → min (g.k * 2) (g.growthLimit s) ≤ c)

theorem staysWithin_iff {c : ℕ} :
    g.StaysWithin c s ↔ ∀ n, (g.observe s).2 = .spawnTo n → n ≤ c := by
  constructor
  · rintro ⟨hreprobe, hdouble⟩ n hn
    rcases observe_spawnTo_iff.1 hn with ⟨hu, h, rfl⟩ | ⟨h, rfl⟩
    · exact hreprobe hu h
    · exact hdouble h
  · intro h
    exact ⟨fun hu hr => h _ (observe_spawnTo_iff.2 (.inl ⟨hu, hr, rfl⟩)),
      fun hd => h _ (observe_spawnTo_iff.2 (.inr ⟨hd, rfl⟩))⟩

end Governor

/-! ### What the driver does with an observation -/

namespace Drive

variable {cfg : DriveCfg} {s s' : Drive} {e : DriveEvent}

theorem step_sampled {now : Nanos} {pressed : Bool} (hadaptive : cfg.adaptive = true)
    (hcancelled : s.cancelled = false) (h : s.step cfg (.tick now pressed) = some s') :
    s'.gov = (s.gov.observe (s.sample cfg now pressed)).1 ∧
      s'.pc = .acting (s.gov.observe (s.sample cfg now pressed)).2 := by
  cases stepped h with
  | quits _ _ _ hc => exact absurd (hcancelled.symm.trans hc) Bool.false_ne_true
  | samples => exact ⟨rfl, rfl⟩
  | ticks _ _ _ _ ha => exact absurd (ha.symm.trans hadaptive) Bool.false_ne_true

/-- Every other step leaves the governor alone and decides nothing. -/
theorem step_unsampled (h : s.step cfg e = some s')
    (htick : ∀ now pressed, e = .tick now pressed → s.cancelled = true ∨ cfg.adaptive = false) :
    s'.gov = s.gov ∧ ∀ d, s'.pc = .acting d → s.pc = .acting d := by
  cases stepped h with
  | joins i w exit =>
    obtain ⟨-, -, -, -, hgov, hpc⟩ := onJoin_spec i w exit s
    refine ⟨hgov, fun d hd => ?_⟩
    rw [hpc] at hd
    split_ifs at hd
    exact hd
  | samples now pressed _ hcancelled hadaptive =>
    rcases htick now pressed rfl with h | h
    · exact absurd (hcancelled.symm.trans h) Bool.false_ne_true
    · exact absurd (h.symm.trans hadaptive) Bool.false_ne_true
  | moves => exact ⟨rfl, fun _ hd => hd⟩
  | cancels => exact ⟨rfl, fun _ hd => hd⟩
  | ticks => exact ⟨rfl, fun _ hd => hd⟩
  | spawns => exact ⟨spawnWorkers_gov, fun _ hd => by cases hd⟩
  | _ => exact ⟨rfl, fun _ hd => by cases hd⟩

/-- The governor of a driver behaves as a governor alone. -/
theorem ramping_of_step (hg : s.gov.Ramping) (h : s.step cfg e = some s') : s'.gov.Ramping := by
  by_cases hsampled : ∃ now pressed, e = .tick now pressed ∧ s.cancelled = false ∧
      cfg.adaptive = true
  · obtain ⟨now, pressed, rfl, hcancelled, hadaptive⟩ := hsampled
    rw [(step_sampled hadaptive hcancelled h).1]
    exact (Governor.observed _ _).ramping hg
  · rw [(step_unsampled h fun now pressed he => ?_).1]
    · exact hg
    · by_contra hne
      rw [not_or, Bool.not_eq_true, Bool.not_eq_false] at hne
      exact hsampled ⟨now, pressed, he, hne⟩

end Drive

/-! ### Runs watched for rate limits -/

/-- The response to the request of a worker is classified as a rate limit. -/
def Worker.limited (ctx : WorkerCtx) (r : Option Response) (w : Worker) : Bool :=
  match w.phase with
  | .connecting _ _ start _ =>
    match ctx.verify start r with
    | .ok _ => false
    | .error error => error.shouldReduceConcurrency
  | _ => false

/-- The step in which a worker meets a rate limit. -/
def Drive.limited (cfg : DriveCfg) (s : Drive) : DriveEvent → Bool
  | .worker i (.respond r) => s.workers[i]?.any (·.limited cfg.ctx r)
  | _ => false

/-- A driver, and what there is to know about rate limits.  The driver reads none of it. -/
structure Watched where
  drive : Drive
  /-- A rate limit was met since the last tick. -/
  pending : Bool
  /-- The lowest target that a rate limit has left. -/
  cap : Option ℕ
deriving DecidableEq, Repr

namespace Watched

def start (plan : Plan) (govCfg : GovernorConfig) (k0 : ℕ) (now : Nanos) : Watched :=
  ⟨.start plan govCfg k0 now, false, none⟩

/-- A tick answers the rate limits that were met before it; from then on the lowered target counts,
or the target itself where it does not fall. -/
def step (cfg : DriveCfg) (l : Watched) (e : DriveEvent) : Option Watched :=
  (l.drive.step cfg e).map fun s =>
    match e with
    | .tick _ _ =>
      let target := min l.drive.gov.k s.gov.k
      ⟨s, false, if l.pending then some (l.cap.elim target (min target)) else l.cap⟩
    | e => ⟨s, l.pending || l.drive.limited cfg e, l.cap⟩

/-- The target that must not be passed at a tick. -/
def Capped (c : ℕ) (l : Watched) : Prop :=
  l.cap = some c ∨ l.pending = true ∧ l.drive.gov.k = 1 ∧ c = 1

/-- The ticks that answer a rate limit, although the governor is told of errors only: the first one
after it finds a reason to lower the target, and neither it nor a later one finds a reason to go
above the lowered one. -/
def Answered (cfg : DriveCfg) (l : Watched) : DriveEvent → Prop
  | .tick now pressed =>
    (l.pending = true → l.drive.gov.k ≠ 1 →
      l.drive.cancelled = false ∧ l.drive.gov.Lowers (l.drive.sample cfg now pressed)) ∧
    (l.drive.cancelled = false → ∀ c, l.Capped c →
      l.drive.gov.StaysWithin c (l.drive.sample cfg now pressed))
  | _ => True

end Watched

/-- The driver and its workers, watched for rate limits. -/
def watchedMachine (cfg : DriveCfg) : Machine Watched DriveEvent := ⟨Watched.step cfg⟩

namespace Watched

variable {cfg : DriveCfg} {l l' : Watched} {e : DriveEvent}

/-- Watching changes nothing. -/
theorem drive_step (h : l.step cfg e = some l') : l.drive.step cfg e = some l'.drive := by
  obtain ⟨s, hs, rfl⟩ := Option.map_eq_some_iff.1 h
  rw [hs]
  cases e <;> rfl

theorem exists_watched {s s₀ : Drive} (h : (driveMachine cfg).Reaches s₀ s) :
    ∃ l, (watchedMachine cfg).Reaches ⟨s₀, false, none⟩ l ∧ s = l.drive := by
  refine h.simulate (R := fun s (l : Watched) => s = l.drive) rfl ?_
  rintro s e s' l rfl - hst
  exact ⟨_, .single trivial (congrArg (Option.map _) hst), by cases e <;> rfl⟩

/-- The invariant: what is to be carried out stays within the lowered target. -/
structure Within (l : Watched) : Prop where
  ramping : l.drive.gov.Ramping
  acting : ∀ n c, l.drive.pc = .acting (.spawnTo n) → l.cap = some c → n ≤ c

theorem Within.tick {now : Nanos} {pressed : Bool} (h : l.Within) (hadaptive : cfg.adaptive = true)
    (he : l.Answered cfg (.tick now pressed)) (hcancelled : l.drive.cancelled = false)
    (hst : l.step cfg (.tick now pressed) = some l') : l'.Within := by
  obtain ⟨-, hpc⟩ := Drive.step_sampled hadaptive hcancelled (drive_step hst)
  refine ⟨Drive.ramping_of_step h.ramping (drive_step hst), fun n c hn hc => ?_⟩
  have hspawn := DrivePc.acting.inj (hpc.symm.trans hn)
  have hle := fun c hc => Governor.staysWithin_iff.1 (he.2 hcancelled c hc) n hspawn
  obtain ⟨s, -, rfl⟩ := Option.map_eq_some_iff.1 hst
  cases hpending : l.pending with
  | false =>
    dsimp only at hc
    rw [hpending] at hc
    exact hle c (.inl hc)
  | true =>
    -- a tick that answers a rate limit asks for nothing
    by_cases hk : l.drive.gov.k = 1
    · have hlt := ((Governor.observe_sound h.ramping.pos).spawn n hspawn).1
      have := hle 1 (.inr ⟨hpending, hk, rfl⟩)
      omega
    · exact absurd hspawn (he.1 hpending hk).2.ne_spawnTo

theorem Within.step (h : l.Within) (hadaptive : cfg.adaptive = true) (he : l.Answered cfg e)
    (hst : l.step cfg e = some l') : l'.Within := by
  by_cases hsampled : l.drive.cancelled = false ∧ ∃ now pressed, e = .tick now pressed
  · obtain ⟨hcancelled, now, pressed, rfl⟩ := hsampled
    exact h.tick hadaptive he hcancelled hst
  · obtain ⟨-, hpc⟩ := Drive.step_unsampled (drive_step hst) fun now pressed htick =>
      .inl (Bool.not_eq_false _ ▸ fun hc => hsampled ⟨hc, now, pressed, htick⟩)
    refine ⟨Drive.ramping_of_step h.ramping (drive_step hst), fun n c hn hc => ?_⟩
    have hacting := hpc _ hn
    refine h.acting n c hacting ?_
    cases e with
    | tick now pressed =>
      have hst' := drive_step hst
      simp only [Drive.step] at hst'
      split_ifs at hst' with hselect
      rw [hselect.1] at hacting
      cases hacting
    | _ =>
      obtain ⟨s, -, rfl⟩ := Option.map_eq_some_iff.1 hst
      exact hc

end Watched

end SwiftLoad
