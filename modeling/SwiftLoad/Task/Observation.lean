import SwiftLoad.Machine.Basic
import SwiftLoad.Task.Governor

/-!
# What an observation can do

`Governor.observe` goes through five functions with eight branches.  This file says once what comes
out of it, so that a property of the governor is one case analysis.

* `Governor.Undisturbed` : nothing pre-empts the phase of the governor.
* `Governor.Closes` : the measurement window is complete at this sample, with the rate `rateAt`.
* `Governor.Reprobes` : a settled governor looks again whether more connections help.
* `Governor.Observed` : the outcomes of an observation, `Governor.observed` : there are no others.
* `Governor.observe_spawnTo_iff` : when an observation asks for more connections, and for how many.
* `governorMachine` : a governor that is fed one sample after the other.
-/

namespace SwiftLoad

namespace Governor

/-- The governor once the sample's bytes and backpressure are noted. -/
def noted (s : Sample) (g : Governor) : Governor :=
  ({ g with lastBytes := s.bytesTotal } : Governor).noteBackpressure s.diskBackpressure

/-- The writer has been blocked for six samples in a row. -/
def DiskBound (s : Sample) (g : Governor) : Prop :=
  s.diskBackpressure = true ∧ 6 ≤ (g.noted s).consecutiveBackpressure

/-- A burst of errors, with a connection to spare. -/
def Bursts (s : Sample) (g : Governor) : Prop := 2 ≤ s.errorsSinceLast ∧ 1 < g.k

instance (s : Sample) (g : Governor) : Decidable (g.DiskBound s) :=
  inferInstanceAs (Decidable (_ ∧ _))

instance (s : Sample) (g : Governor) : Decidable (g.Bursts s) :=
  inferInstanceAs (Decidable (_ ∧ _))

/-- Nothing pre-empts the phase of the governor. -/
structure Undisturbed (s : Sample) (g : Governor) : Prop where
  rate : s.rateLimited = none
  disk : ¬g.DiskBound s
  errors : ¬g.Bursts s

/-- The room for growth: the limits of `try_grow` and `maybe_reprobe`. -/
def growthLimit (s : Sample) (g : Governor) : ℕ :=
  min (min g.ceiling g.cfg.maxConns) (maxByWork s.remainingBytes)

/-- The window that the sample belongs to. -/
def windowAt (s : Sample) (g : Governor) : Window := g.window.getD ⟨s.now, s.bytesTotal⟩

/-- The warmup after a change is not over. -/
def WarmingUp (s : Sample) (g : Governor) : Prop :=
  g.window = none ∧ s.bytesTotal - g.bytesAtChange < warmupBytesPerConn * g.k ∧
    s.now - g.changedAt < g.cfg.warmup

/-- The window is too short to judge by. -/
def TooShort (s : Sample) (g : Governor) : Prop :=
  s.now - (g.windowAt s).started < minSample ∨
    ((s.now - (g.windowAt s).started : ℕ) : ℚ) < g.effectiveDwell (s.now - (g.windowAt s).started)
        (s.bytesTotal - (g.windowAt s).startBytes) s.remainingBytes ∧
      s.bytesTotal - (g.windowAt s).startBytes < dwellBytesPerConn * g.k

/-- The measurement window is complete at this sample. -/
def Closes (s : Sample) (g : Governor) : Prop := ¬g.WarmingUp s ∧ ¬g.TooShort s

/-- The rate over the window. -/
def rateAt (s : Sample) (g : Governor) : ℚ :=
  ((s.bytesTotal - (g.windowAt s).startBytes : ℕ) : ℚ) /
    ((s.now - (g.windowAt s).started : ℕ) : ℚ)

/-- The governor after the window is closed. -/
def closed (s : Sample) (g : Governor) : Governor :=
  ({ g with window := some (g.windowAt s) } : Governor).closeWindow (g.rateAt s) s.now

/-- The settled governor looks again whether more connections help. -/
structure Reprobes (s : Sample) (g : Governor) : Prop where
  settled : g.phase = .hold
  unsaturated : g.saturationDetected = false
  unlimited : g.stopReason ≠ .rateLimited
  token : s.probeToken = true
  errors : s.errorsSinceLast = 0
  due : g.reprobeInterval ≤ s.now - g.lastProbe
  work : minSegment * 4 ≤ s.remainingBytes
  room : g.k < g.growthLimit s

variable {g : Governor} {s : Sample} {r : Governor × Decision} {n : ℕ}

@[simp] theorem noted_closes : (g.noted s).Closes s ↔ g.Closes s := Iff.rfl

theorem measure_of_not_closes (h : ¬g.Closes s) :
    ∃ w, g.measure s = ({ g with window := w }, .hold) := by
  simp only [measure]
  split_ifs with hwarm hshort
  · exact ⟨g.window, rfl⟩
  · exact ⟨_, rfl⟩
  · exact absurd ⟨hwarm, hshort⟩ h

theorem measure_of_closes (h : g.Closes s) :
    g.measure s = match g.phase with
      | .baseline => ({ g.closed s with
          baseline := some (g.k, g.rateAt s), phase := .ramp } : Governor).tryGrow s
      | .ramp => (g.closed s).judge g.k (g.rateAt s) s
      | _ => (g.closed s, .hold) := by
  simp only [measure]
  split_ifs with hwarm hshort
  · exact absurd hwarm h.1
  · exact absurd hshort h.2
  · rfl

/-! ### Growth -/

/-- The outcomes of `try_grow`. -/
inductive Grown (s : Sample) (g : Governor) : Governor × Decision → Prop
  /-- Someone else is ramping. -/
  | untaken (h : s.probeToken = false) : Grown s g ({ g with phase := .hold }, .hold)
  /-- The disk is already behind. -/
  | pressed (h : g.recentBackpressure = true) :
      Grown s g ({ g with stopReason := .diskBound, phase := .hold, lastProbe := s.now },
        .releaseToken g.k)
  | full (reason : StopReason) (h : min (g.k * 2) (g.growthLimit s) ≤ g.k) :
      Grown s g ({ g with stopReason := reason, phase := .hold, lastProbe := s.now },
        .releaseToken g.k)
  | grows (next : ℕ) (htoken : s.probeToken = true) (hdisk : g.recentBackpressure = false)
      (hlt : g.k < next) (hle : next ≤ g.growthLimit s) :
      Grown s g (({ g with phase := .ramp } : Governor).changeTo next s.now, .spawnTo next)

theorem grown (s : Sample) (g : Governor) : g.Grown s (g.tryGrow s) := by
  simp only [tryGrow]
  split_ifs with htoken hdisk hfull hwork
  · exact .untaken htoken
  · exact .pressed hdisk
  · exact .full .notEnoughWork hfull
  · exact .full .reachedCeiling hfull
  · exact .grows _ (by simpa using htoken) (by simpa using hdisk) (Nat.not_le.1 hfull)
      (min_le_right _ _)

/-! ### A level that did not pay -/

/-- Where the governor settles after a level that did not pay. -/
def settleAt (target : ℕ) (g : Governor) : ℕ := max (min target g.ceiling) 1

/-- The outcomes of the end of `judge`. -/
inductive SteppedBack (prevK : ℕ) (prevRate : ℚ) (level : ℕ) (rate : ℚ) (s : Sample)
    (g : Governor) : Governor × Decision → Prop
  /-- We were measuring the midpoint. -/
  | settled (mid : ℕ) (h : g.midCandidate = some mid) :
      SteppedBack prevK prevRate level rate s g
        (({ g with
          midCandidate := none
          phase := .hold
          lastProbe := s.now
          ceiling := min g.ceiling
            (max (level - 1) (g.settleAt (if prevRate < rate then mid else prevK))) } :
            Governor).changeTo (g.settleAt (if prevRate < rate then mid else prevK)) s.now,
          .releaseToken (g.settleAt (if prevRate < rate then mid else prevK)))
  | midpoint (mid : ℕ) (h : g.midCandidate = none) (hlt : prevK < mid) (hle : mid < level) :
      SteppedBack prevK prevRate level rate s g
        (({ g with midCandidate := some mid } : Governor).changeTo mid s.now, .retireTo mid)
  | back (h : g.midCandidate = none) (hmid : ¬(prevK < (prevK + level) / 2 ∧
      (prevK + level) / 2 < level)) :
      SteppedBack prevK prevRate level rate s g
        (({ g with
          ceiling := min g.ceiling (max (level - 1) (g.settleAt prevK))
          phase := .hold
          lastProbe := s.now } : Governor).changeTo (g.settleAt prevK) s.now,
          .releaseToken (g.settleAt prevK))

theorem steppedBack (prevK : ℕ) (prevRate : ℚ) (level : ℕ) (rate : ℚ) (s : Sample)
    (g : Governor) :
    g.SteppedBack prevK prevRate level rate s (g.stepBack prevK prevRate level rate s) := by
  unfold stepBack
  split
  · rename_i mid hmid
    exact .settled mid hmid
  · rename_i hmid
    simp only
    split_ifs with h
    · exact .midpoint _ hmid h.1 h.2
    · exact .back hmid h

/-! ### An observation -/

/-- The outcomes of an observation. -/
inductive Observed (s : Sample) (g : Governor) : Governor × Decision → Prop
  | limited (retryAfter : Option Nanos) (h : s.rateLimited = some retryAfter) :
      Observed s g (({ g with
        lastBytes := s.bytesTotal
        ceiling := max (g.k / 2) 1
        saturationDetected := true
        stopReason := .rateLimited
        phase := .backOff } : Governor).changeTo (max (g.k / 2) 1) s.now,
        .backOff (max (g.k / 2) 1) (retryAfter.getD (secs 1)))
  | diskBound (hrate : s.rateLimited = none) (h : g.DiskBound s) :
      Observed s g ({ g.noted s with ceiling := g.k, stopReason := .diskBound, phase := .hold },
        .hold)
  | shed (hrate : s.rateLimited = none) (hdisk : ¬g.DiskBound s) (h : g.Bursts s) :
      Observed s g (({ g.noted s with ceiling := min g.ceiling g.k, phase := .hold } :
        Governor).changeTo (g.k - 1) s.now, .retireTo (g.k - 1))
  | cooled (hu : g.Undisturbed s) (h : g.phase = .backOff) :
      Observed s g ({ g.noted s with phase := .hold }, .hold)
  | measuring (w : Option Window) (hu : g.Undisturbed s)
      (hphase : g.phase = .baseline ∨ g.phase = .ramp) (h : ¬g.Closes s) :
      Observed s g ({ g.noted s with window := w }, .hold)
  /-- The first level, or one whose baseline is missing. -/
  | first {r : Governor × Decision} (hu : g.Undisturbed s) (hclose : g.Closes s)
      (h : g.phase = .baseline ∨ g.phase = .ramp ∧ g.baseline = none)
      (hr : ({ (g.noted s).closed s with
        baseline := some (g.k, g.rateAt s), phase := .ramp } : Governor).Grown s r) :
      Observed s g r
  /-- A level that paid. -/
  | paid {r : Governor × Decision} (prevK : ℕ) (prevRate : ℚ) (hu : g.Undisturbed s)
      (hclose : g.Closes s) (hphase : g.phase = .ramp)
      (hbase : g.baseline = some (prevK, prevRate))
      (hgain : g.cfg.gainThreshold ≤ gainOver prevRate (g.rateAt s))
      (hr : ({ (g.noted s).closed s with
        baseline := some (g.k, g.rateAt s), midCandidate := none } : Governor).Grown s r) :
      Observed s g r
  | unpaid {r : Governor × Decision} (prevK : ℕ) (prevRate : ℚ) (hu : g.Undisturbed s)
      (hclose : g.Closes s) (hphase : g.phase = .ramp)
      (hbase : g.baseline = some (prevK, prevRate))
      (hgain : ¬g.cfg.gainThreshold ≤ gainOver prevRate (g.rateAt s))
      (hr : (((g.noted s).closed s).noteLoss (gainOver prevRate (g.rateAt s))
        (perConnRatio prevK prevRate g.k (g.rateAt s))).SteppedBack prevK prevRate g.k
          (g.rateAt s) s r) :
      Observed s g r
  | settled (hu : g.Undisturbed s) (hphase : g.phase = .hold) (h : ¬g.Reprobes s) :
      Observed s g (g.noted s, .hold)
  | reprobed (hu : g.Undisturbed s) (h : g.Reprobes s) :
      Observed s g (({ g.noted s with
        reprobeInterval := g.reprobeInterval * 2
        baseline := g.best
        phase := .ramp } : Governor).changeTo (min (g.k + 2) (g.growthLimit s)) s.now,
        .spawnTo (min (g.k + 2) (g.growthLimit s)))

theorem observed_settled (hu : g.Undisturbed s) (hphase : g.phase = .hold) :
    g.Observed s ((g.noted s).maybeReprobe s) := by
  simp only [maybeReprobe]
  split_ifs with hsat htoken hdue hwork hroom
  · refine .settled hu hphase fun h => ?_
    rcases hsat with hsat | hsat
    · exact absurd (h.unsaturated.symm.trans hsat) (by decide)
    · exact h.unlimited hsat
  · refine .settled hu hphase fun h => ?_
    rcases htoken with htoken | herr
    · exact absurd (h.token.symm.trans htoken) (by decide)
    · have := h.errors
      omega
  · exact .settled hu hphase fun h => absurd hdue (Nat.not_lt.2 h.due)
  · exact .settled hu hphase fun h => absurd hwork (Nat.not_lt.2 h.work)
  · refine .settled hu hphase fun h => ?_
    have hlt : g.k < min (g.k + 2) (g.growthLimit s) := lt_min (by omega) h.room
    exact absurd hroom (Nat.not_le.2 hlt)
  · have hlt : g.k < min (g.k + 2) (g.growthLimit s) := Nat.not_le.1 hroom
    refine .reprobed hu ⟨hphase, ?_, ?_, ?_, ?_, Nat.not_lt.1 hdue, Nat.not_lt.1 hwork,
      hlt.trans_le (min_le_right _ _)⟩
    · exact Bool.eq_false_iff.2 fun h => hsat (Or.inl h)
    · exact fun h => hsat (Or.inr h)
    · exact Bool.not_eq_false _ ▸ fun h => htoken (Or.inl h)
    · exact Nat.eq_zero_of_not_pos fun h => htoken (Or.inr h)

theorem observed_measuring (hu : g.Undisturbed s)
    (hphase : g.phase = .baseline ∨ g.phase = .ramp) : g.Observed s ((g.noted s).measure s) := by
  by_cases hclose : g.Closes s
  · rw [measure_of_closes (noted_closes.2 hclose), show (g.noted s).phase = g.phase from rfl]
    rcases hphase with hphase | hphase
    · rw [hphase]
      exact .first hu hclose (.inl hphase) (grown _ _)
    · rw [hphase]
      show g.Observed s (((g.noted s).closed s).judge g.k (g.rateAt s) s)
      unfold judge
      rw [show ((g.noted s).closed s).baseline = g.baseline from rfl]
      cases hbase : g.baseline with
      | none => 
        refine .first hu hclose (.inr ⟨hphase, hbase⟩) ?_
        have hclosed : ({ (g.noted s).closed s with
            baseline := some (g.k, g.rateAt s), phase := .ramp } : Governor) =
              { (g.noted s).closed s with baseline := some (g.k, g.rateAt s) } := by
          rw [← hphase]
          rfl
        rw [hclosed]
        exact grown _ _
      | some b =>
        obtain ⟨prevK, prevRate⟩ := b
        dsimp only
        split_ifs with hgain
        · exact .paid prevK prevRate hu hclose hphase hbase hgain (grown _ _)
        · exact .unpaid prevK prevRate hu hclose hphase hbase hgain (steppedBack ..)
  · obtain ⟨w, hw⟩ := measure_of_not_closes (mt noted_closes.1 hclose)
    rw [hw]
    exact .measuring w hu hphase hclose

/-- An undisturbed governor does what its phase says. -/
theorem observe_undisturbed (hu : g.Undisturbed s) :
    (g.phase = .baseline ∨ g.phase = .ramp → g.observe s = (g.noted s).measure s) ∧
      (g.phase = .hold → g.observe s = (g.noted s).maybeReprobe s) ∧
      (g.phase = .backOff → g.observe s = ({ g.noted s with phase := .hold }, .hold)) := by
  unfold observe
  rw [hu.rate]
  have hrest : ∀ r r₁ r₂ : Governor × Decision,
      (if g.DiskBound s then r₁ else if g.Bursts s then r₂ else r) = r := by
    intro r r₁ r₂
    rw [if_neg hu.disk, if_neg hu.errors]
  refine ⟨fun hphase => (hrest _ _ _).trans ?_, fun hphase => (hrest _ _ _).trans ?_,
    fun hphase => (hrest _ _ _).trans ?_⟩
  · rcases hphase with hphase | hphase <;> simp [noteBackpressure, noted, hphase]
  · simp [noteBackpressure, noted, hphase]
  · simp [noteBackpressure, noted, hphase]

/-- **There are no other outcomes.** -/
theorem observed (s : Sample) (g : Governor) : g.Observed s (g.observe s) := by
  by_cases hu : g.Undisturbed s
  · obtain ⟨hmeasuring, hsettled, hcooling⟩ := observe_undisturbed hu
    cases hphase : g.phase with
    | baseline =>
      rw [hmeasuring (.inl hphase)]
      exact observed_measuring hu (.inl hphase)
    | ramp =>
      rw [hmeasuring (.inr hphase)]
      exact observed_measuring hu (.inr hphase)
    | hold =>
      rw [hsettled hphase]
      exact observed_settled hu hphase
    | backOff =>
      rw [hcooling hphase]
      exact .cooled hu hphase
  · unfold observe
    split
    · rename_i retryAfter hrate
      exact .limited retryAfter hrate
    · rename_i hrate
      show g.Observed s (if g.DiskBound s then _ else if g.Bursts s then _ else _)
      split_ifs with hdisk hburst
      · exact .diskBound hrate hdisk
      · exact .shed hrate hdisk hburst
      · exact absurd ⟨hrate, hdisk, hburst⟩ hu

/-! ### Growth after an observation -/

/-- A re-probe is due: the governor asks for more. -/
theorem Observed.of_reprobes (h : g.Observed s r) (hu : g.Undisturbed s) (hp : g.Reprobes s) :
    r.2 = .spawnTo (min (g.k + 2) (g.growthLimit s)) := by
  have hphase := hp.settled
  cases h with
  | limited _ hrate => exact absurd hu.rate (by simp [hrate])
  | diskBound _ hdisk => exact absurd hdisk hu.disk
  | shed _ _ hburst => exact absurd hburst hu.errors
  | cooled _ h => simp [h] at hphase
  | measuring _ _ h => simp [hphase] at h
  | first _ _ h => simp [hphase] at h
  | paid _ _ _ _ h => simp [h] at hphase
  | unpaid _ _ _ _ h => simp [h] at hphase
  | settled _ _ h => exact absurd hp h
  | reprobed => rfl

/-- The level just measured is adopted: it is the first one, or it paid. -/
def Adopts (s : Sample) (g : Governor) : Prop :=
  g.phase = .baseline ∨ g.phase = .ramp ∧ ∀ prevK prevRate, g.baseline = some (prevK, prevRate) →
    g.cfg.gainThreshold ≤ gainOver prevRate (g.rateAt s)

/-- The level just measured is adopted, and there is room for the next one. -/
structure Doubles (s : Sample) (g : Governor) : Prop where
  undisturbed : g.Undisturbed s
  closes : g.Closes s
  adopts : g.Adopts s
  token : s.probeToken = true
  disk : s.diskBackpressure = false
  room : g.k < min (g.k * 2) (g.growthLimit s)

theorem tryGrow_spawnTo_iff : (g.tryGrow s).2 = .spawnTo n ↔
    s.probeToken = true ∧ g.recentBackpressure = false ∧ g.k < n ∧
      n = min (g.k * 2) (g.growthLimit s) := by
  simp only [tryGrow]
  split_ifs with htoken hdisk hfull
  · simp [htoken]
  · simp [hdisk]
  · refine iff_of_false (by simp) ?_
    rintro ⟨-, -, hlt, rfl⟩
    exact absurd hfull (Nat.not_le.2 hlt)
  · refine ⟨fun h => ?_, fun h => congrArg _ h.2.2.2.symm⟩
    obtain rfl := Decision.spawnTo.inj h
    exact ⟨by simpa using htoken, by simpa using hdisk, Nat.not_le.1 hfull, rfl⟩

theorem stepBack_ne_spawnTo (prevK : ℕ) (prevRate : ℚ) (level : ℕ) (rate : ℚ) :
    (g.stepBack prevK prevRate level rate s).2 ≠ .spawnTo n := by
  have h := g.steppedBack prevK prevRate level rate s
  generalize g.stepBack prevK prevRate level rate s = r at h
  cases h <;> simp

/-- A level under measurement leads to more connections when its window closes and it is adopted. -/
theorem measure_spawnTo_iff (hphase : g.phase = .baseline ∨ g.phase = .ramp) :
    (g.measure s).2 = .spawnTo n ↔ g.Closes s ∧ g.Adopts s ∧ s.probeToken = true ∧
      g.recentBackpressure = false ∧ g.k < n ∧ n = min (g.k * 2) (g.growthLimit s) := by
  by_cases hclose : g.Closes s
  · rw [measure_of_closes hclose, and_iff_right hclose, Adopts]
    rcases hphase with hphase | hphase
    · rw [hphase, and_iff_right (.inl rfl)]
      exact tryGrow_spawnTo_iff
    · rw [hphase]
      show ((g.closed s).judge g.k (g.rateAt s) s).2 = .spawnTo n ↔ _
      unfold judge
      rw [show (g.closed s).baseline = g.baseline from rfl]
      cases hbase : g.baseline with
      | none =>
        rw [and_iff_right (.inr ⟨rfl, fun _ _ h => by cases h⟩)]
        exact tryGrow_spawnTo_iff
      | some b =>
        obtain ⟨prevK, prevRate⟩ := b
        dsimp only
        split_ifs with hgain
        · have hadopt : ∀ prevK' prevRate', some (prevK, prevRate) = some (prevK', prevRate') →
              g.cfg.gainThreshold ≤ gainOver prevRate' (g.rateAt s) := by
            rintro prevK' prevRate' h
            obtain ⟨-, rfl⟩ := Prod.mk.inj (Option.some.inj h)
            exact hgain
          rw [and_iff_right (.inr ⟨rfl, hadopt⟩)]
          exact tryGrow_spawnTo_iff
        · refine iff_of_false (stepBack_ne_spawnTo _ _ _ _) ?_
          rintro ⟨hramp | ⟨-, hpaid⟩, -⟩
          · cases hramp
          · exact hgain (hpaid prevK prevRate rfl)
  · obtain ⟨w, hw⟩ := measure_of_not_closes hclose
    rw [hw]
    exact iff_of_false (by simp) fun h => hclose h.1

/-- **When an observation asks for more connections, and for how many.** -/
theorem observe_spawnTo_iff : (g.observe s).2 = .spawnTo n ↔
    g.Undisturbed s ∧ g.Reprobes s ∧ n = min (g.k + 2) (g.growthLimit s) ∨
      g.Doubles s ∧ n = min (g.k * 2) (g.growthLimit s) := by
  have hmeasure : ∀ hu : g.Undisturbed s, g.phase = .baseline ∨ g.phase = .ramp →
      ((g.observe s).2 = .spawnTo n ↔ g.Doubles s ∧ n = min (g.k * 2) (g.growthLimit s)) := by
    intro hu hphase
    rw [(observe_undisturbed hu).1 hphase, measure_spawnTo_iff (g := g.noted s) hphase]
    constructor
    · rintro ⟨hclose, hadopt, htoken, hdisk, hlt, rfl⟩
      exact ⟨⟨hu, hclose, hadopt, htoken, hdisk, hlt⟩, rfl⟩
    · rintro ⟨h, rfl⟩
      exact ⟨h.closes, h.adopts, h.token, h.disk, h.room, rfl⟩
  constructor
  · intro hn
    have h := observed s g
    generalize hr : g.observe s = r at h hn hmeasure
    cases h with
    | limited => cases hn
    | diskBound => cases hn
    | shed => cases hn
    | cooled => cases hn
    | measuring => cases hn
    | settled => cases hn
    | first hu _ hphase => exact .inr ((hmeasure hu (hphase.imp_right And.left)).1 hn)
    | paid _ _ hu _ hphase => exact .inr ((hmeasure hu (.inr hphase)).1 hn)
    | unpaid _ _ hu _ hphase => exact .inr ((hmeasure hu (.inr hphase)).1 hn)
    | reprobed hu h => exact .inl ⟨hu, h, (Decision.spawnTo.inj hn).symm⟩
  · rintro (⟨hu, h, rfl⟩ | ⟨h, rfl⟩)
    · exact (observed s g).of_reprobes hu h
    · exact (hmeasure h.undisturbed (h.adopts.imp_right And.left)).2 ⟨h, rfl⟩

end Governor

/-- A governor that is fed one sample after the other. -/
def governorMachine : Machine Governor Sample := ⟨fun g s => some (g.observe s).1⟩

end SwiftLoad
