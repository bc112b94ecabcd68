import Mathlib.Tactic.Ring
import SwiftLoad.Machine.Ranked
import SwiftLoad.Task.GovernorSafety

/-!
# The governor settles

Under samples without errors, limits or backpressure the governor explores the levels for a while
and then stays where it is, whatever the rates of the levels are.

Two facts bound the exploration.  Within one ramp the level to compare against only rises.  And a
ramp ends in one of two ways: either there is no room above the target, and there never will be
again, or the ceiling falls below a level that did not pay.  Both go into one rank
(`Governor.rank`), which every decision other than `hold` lowers.

* `Sample.Quiet` : a sample with nothing adverse.
* `Observed.rank` : the rank after one observation.
* `governor_settles` : **the decisions other than `hold` are at most `2 m (m + 1)`, with `m` the
  configured maximum, and the target is constant from some point on.**
-/

namespace SwiftLoad

/-- A sample with nothing adverse, and with the probe token held. -/
structure Sample.Quiet (s : Sample) : Prop where
  errors : s.errorsSinceLast = 0
  rate : s.rateLimited = none
  disk : s.diskBackpressure = false
  token : s.probeToken = true

namespace Governor

/-- The governor after the first `n` samples. -/
def fed (g : Governor) (samples : ℕ → Sample) : ℕ → Governor
  | 0 => g
  | n + 1 => ((g.fed samples n).observe (samples n)).1

/-- The answer to the `n`-th sample. -/
def decision (g : Governor) (samples : ℕ → Sample) (n : ℕ) : Decision :=
  ((g.fed samples n).observe (samples n)).2

/-- The level that is compared against, if it is below the one that is measured. -/
def cleared (g : Governor) : ℕ := min (g.baseline.elim 0 Prod.fst) (g.k - 1)

/-- More than a ramp can take out of the rank. -/
def rampCost (g : Governor) : ℕ := 2 * g.cfg.maxConns + 2

/-- What is left of the rank within a ramp: two for each level above the one compared against, and
one for the midpoint. -/
def rampRank (g : Governor) : ℕ :=
  2 * (g.cfg.maxConns - g.cleared) + if g.midCandidate.isNone then 1 else 0

/-- What is left to explore. -/
def rank (s : Sample) (g : Governor) : ℕ :=
  match g.phase with
  | .baseline => g.cfg.maxConns * g.rampCost
  | .ramp => (g.ceiling - 1) * g.rampCost + g.rampRank
  | _ => if g.growthLimit s ≤ g.k then 0 else g.ceiling * g.rampCost

variable {g g' : Governor} {s s' : Sample} {r : Governor × Decision}

theorem rank_ramp (h : g.phase = .ramp) :
    g.rank s = (g.ceiling - 1) * g.rampCost + g.rampRank := by
  rw [rank, h]

theorem rank_hold (h : g.phase = .hold) :
    g.rank s = if g.growthLimit s ≤ g.k then 0 else g.ceiling * g.rampCost := by
  rw [rank, h]

theorem rank_ramp_lt (hphase : g.phase = .ramp) (hb : g.Bounded) :
    g.rank s < g.ceiling * g.rampCost := by
  have hpos : 0 < g.ceiling := hb.pos.trans_le hb.le
  have hramp : g.rampRank < g.rampCost := by
    unfold rampRank rampCost
    split_ifs <;> omega
  obtain ⟨c, hc⟩ : ∃ c, g.ceiling = c + 1 := ⟨g.ceiling - 1, by omega⟩
  rw [rank_ramp hphase, hc, Nat.add_sub_cancel, Nat.add_one_mul]
  omega

theorem rank_ramp_level (hphase : g.phase = .ramp) (hb : g.Bounded) :
    (g.ceiling - 1) * g.rampCost + (2 * (g.cfg.maxConns - g.k) + 1) < g.rank s := by
  have hk := hb.pos
  have hmax := hb.le.trans hb.max
  have hcleared : g.cleared ≤ g.k - 1 := min_le_right _ _
  rw [rank_ramp hphase]
  unfold rampRank
  omega

/-- While a level above the first one is measured, there is something left. -/
theorem rank_ramp_gt (hphase : g.phase = .ramp) (hb : g.Bounded) :
    (g.ceiling - 1) * g.rampCost < g.rank s :=
  (Nat.le_add_right _ _).trans_lt (rank_ramp_level hphase hb)

/-- The rank is about the levels and the midpoint only. -/
theorem rank_congr (hcfg : g'.cfg = g.cfg) (hk : g'.k = g.k) (hceiling : g'.ceiling = g.ceiling)
    (hmid : g'.midCandidate = g.midCandidate) (hphase : g'.phase = g.phase)
    (hbase : g'.baseline = g.baseline) : g'.rank s = g.rank s := by
  unfold rank rampCost rampRank cleared growthLimit
  rw [hcfg, hk, hceiling, hmid, hphase, hbase]

theorem rank_mono (h : s'.remainingBytes ≤ s.remainingBytes) (g : Governor) :
    g.rank s' ≤ g.rank s := by
  have hlimit : g.growthLimit s' ≤ g.growthLimit s := by
    unfold growthLimit maxByWork
    have := Nat.div_le_div_right (c := minSegment) h
    omega
  unfold rank
  split
  · exact le_rfl
  · exact le_rfl
  · split_ifs
    · exact le_rfl
    · exact Nat.zero_le _
    · omega
    · exact le_rfl

/-- What an observation leaves of the rank. -/
structure Spends (g : Governor) (s : Sample) (r : Governor × Decision) : Prop where
  le : r.1.rank s ≤ g.rank s
  lt : r.2 ≠ .hold → r.1.rank s < g.rank s
  stays : r.2 = .hold → r.1.k = g.k

theorem Spends.of_lt (h : r.1.rank s < g.rank s) (hd : r.2 ≠ .hold) : g.Spends s r :=
  ⟨h.le, fun _ => h, fun hn => absurd hn hd⟩

theorem Spends.of_hold (hrank : g'.rank s = g.rank s) (hk : g'.k = g.k) :
    g.Spends s (g', .hold) :=
  ⟨hrank.le, fun hn => absurd rfl hn, fun _ => hk⟩

theorem Grown.rank_lt (h : g.Grown s r) (hb : g.Bounded) (hs : s.Quiet)
    (hdisk : g.recentBackpressure = false) (hbase : g.baseline.elim 0 Prod.fst = g.k) {m : ℕ}
    (hm : (g.ceiling - 1) * g.rampCost + (2 * (g.cfg.maxConns - g.k) + 1) < m) :
    r.1.rank s < m ∧ r.2 ≠ .hold := by
  cases h with
  | untaken h => exact absurd (hs.token.symm.trans h) (by decide)
  | pressed h => exact absurd (hdisk.symm.trans h) (by decide)
  | full reason h =>
    refine ⟨?_, fun hn => nomatch hn⟩
    have hpos := hb.pos
    have hfull : g.growthLimit s ≤ g.k := by omega
    rw [rank_hold rfl]
    refine lt_of_eq_of_lt (if_pos hfull) ?_
    omega
  | grows next _ _ hlt hle =>
    refine ⟨?_, fun hn => nomatch hn⟩
    rw [rank_ramp rfl]
    refine lt_of_le_of_lt (Nat.add_le_add_left ?_ _) hm
    have hcleared : min (g.baseline.elim 0 Prod.fst) (next - 1) = g.k := by
      rw [hbase]
      omega
    show 2 * (g.cfg.maxConns - min (g.baseline.elim 0 Prod.fst) (next - 1)) +
      (if g.midCandidate.isNone then 1 else 0) ≤ _
    rw [hcleared]
    split_ifs <;> omega

/-- Settling below a level that did not pay: there is no room any more, or the ceiling falls. -/
theorem rank_settle_le {mid : Option ℕ} {target : ℕ} (g : Governor) (s : Sample) :
    (({ g with
        midCandidate := mid
        phase := .hold
        lastProbe := s.now
        ceiling := min g.ceiling (max (g.k - 1) (g.settleAt target)) } : Governor).changeTo
          (g.settleAt target) s.now).rank s ≤ (g.k - 1) * g.rampCost := by
  rw [rank_hold rfl]
  split_ifs with h
  · exact Nat.zero_le _
  · have hroom : g.settleAt target < min g.ceiling (max (g.k - 1) (g.settleAt target)) :=
      (Nat.not_le.1 h).trans_le ((min_le_left _ _).trans (min_le_left _ _))
    refine Nat.mul_le_mul_right _ ?_
    show min g.ceiling (max (g.k - 1) (g.settleAt target)) ≤ g.k - 1
    omega

theorem SteppedBack.rank_lt {prevK level : ℕ} {prevRate rate : ℚ}
    (h : g.SteppedBack prevK prevRate level rate s r) (hlevel : level = g.k) (hb : g.Bounded)
    (hphase : g.phase = .ramp) (hbase : g.baseline = some (prevK, prevRate)) :
    r.1.rank s < g.rank s ∧ r.2 ≠ .hold := by
  subst hlevel
  have hk : g.k - 1 ≤ g.ceiling - 1 := Nat.sub_le_sub_right hb.le 1
  have hgt := (Nat.mul_le_mul_right g.rampCost hk).trans_lt (rank_ramp_gt (s := s) hphase hb)
  cases h with
  | settled => exact ⟨(rank_settle_le g s).trans_lt hgt, fun hn => nomatch hn⟩
  | midpoint mid h hlt hmid =>
    refine ⟨?_, fun hn => nomatch hn⟩
    rw [rank_ramp hphase, rank_ramp (by exact hphase)]
    refine Nat.add_lt_add_left ?_ _
    show 2 * (g.cfg.maxConns - min (g.baseline.elim 0 Prod.fst) (mid - 1)) + 0 <
      2 * (g.cfg.maxConns - min (g.baseline.elim 0 Prod.fst) (g.k - 1)) +
        if g.midCandidate.isNone then 1 else 0
    rw [h, hbase]
    simp only [Option.elim_some, Option.isNone_none, if_true]
    omega
  | back => exact ⟨(rank_settle_le g s).trans_lt hgt, fun hn => nomatch hn⟩

/-- **What one observation leaves to explore.** -/
theorem Observed.spends (h : g.Observed s r) (hb : g.Bounded) (hs : s.Quiet) : g.Spends s r := by
  have hkeep := (h.keeps hb).bounded
  have hnoted : (g.noted s).recentBackpressure = false := hs.disk
  cases h with
  | limited _ hrate => exact absurd (hs.rate.symm.trans hrate) (by simp)
  | diskBound _ h => exact absurd (hs.disk.symm.trans h.1) (by decide)
  | shed _ _ h => exact absurd h.1 (by rw [hs.errors]; decide)
  | cooled hu h =>
    refine .of_hold ?_ rfl
    rw [rank_hold rfl, rank, h]
    rfl
  | measuring => exact .of_hold rfl rfl
  | first hu hclose hphase hr =>
    have hlevel : (g.ceiling - 1) * g.rampCost + (2 * (g.cfg.maxConns - g.k) + 1) < g.rank s := by
      rcases hphase with hphase | hphase
      · -- the first level: the whole rank is left
        have hramp : ({ g with phase := .ramp } : Governor).Bounded := ⟨hb.pos, hb.le, hb.max⟩
        have hlt := (rank_ramp_level (s := s) rfl hramp).trans (rank_ramp_lt rfl hramp)
        rw [rank, hphase]
        exact hlt.trans_le (Nat.mul_le_mul_right _ hb.max)
      · exact rank_ramp_level hphase.1 hb
    obtain ⟨hlt, hd⟩ := hr.rank_lt ⟨hb.pos, hb.le, hb.max⟩ hs hnoted rfl hlevel
    exact .of_lt hlt hd
  | paid prevK prevRate hu hclose hphase hbase hgain hr =>
    have hlevel : (g.ceiling - 1) * g.rampCost + (2 * (g.cfg.maxConns - g.k) + 1) < g.rank s :=
      rank_ramp_level hphase hb
    obtain ⟨hlt, hd⟩ := hr.rank_lt ⟨hb.pos, hb.le, hb.max⟩ hs hnoted rfl hlevel
    exact .of_lt hlt hd
  | unpaid prevK prevRate hu hclose hphase hbase hgain hr =>
    obtain ⟨hcfg, hk, hceiling, hmid, hph, hba⟩ := noteLoss_eq (gainOver prevRate (g.rateAt s))
      (perConnRatio prevK prevRate g.k (g.rateAt s)) ((g.noted s).closed s)
    have hrank := rank_congr (g := g) (s := s) hcfg hk hceiling hmid hph hba
    obtain ⟨hlt, hd⟩ := hr.rank_lt hk.symm (hb.of_eq hcfg hk hceiling) (hph.trans hphase)
      (hba.trans hbase)
    exact .of_lt (hlt.trans_eq hrank) hd
  | settled => exact .of_hold rfl rfl
  | reprobed hu h =>
    refine .of_lt ?_ fun hn => nomatch hn
    have hroom : g.rank s = g.ceiling * g.rampCost := by
      rw [rank_hold h.settled, if_neg (Nat.not_le.2 h.room)]
    exact (rank_ramp_lt rfl hkeep).trans_eq hroom.symm

/-! ### Infinite runs -/

theorem reaches_fed (g : Governor) (samples : ℕ → Sample) (n : ℕ) :
    governorMachine.Reaches g (g.fed samples n) := by
  induction n with
  | zero => exact .refl
  | succ n ih => exact ih.tail (e := samples n) trivial rfl

/-- What is left to explore at the `n`-th sample. -/
def left (g : Governor) (samples : ℕ → Sample) (n : ℕ) : ℕ := (g.fed samples n).rank (samples n)

/-- **The governor settles.**  For every infinite sequence of quiet samples over which the work
that is left never grows, whatever is measured: the decisions other than `hold` are bounded by a
number that depends on the configured maximum only, and the target is constant in the end. -/
theorem governor_settles {cfg : GovernorConfig} {k0 : ℕ} (hpos : 1 ≤ k0) (hle : k0 ≤ cfg.maxConns)
    (now : Nanos) (samples : ℕ → Sample) (hquiet : ∀ n, (samples n).Quiet)
    (hwork : ∀ n, (samples (n + 1)).remainingBytes ≤ (samples n).remainingBytes) :
    (∀ n, ((Finset.range n).filter fun i => (new cfg k0 now).decision samples i ≠ .hold).card ≤
      2 * cfg.maxConns * (cfg.maxConns + 1)) ∧
    ∃ n, ∀ m ≥ n, ((new cfg k0 now).fed samples m).k = ((new cfg k0 now).fed samples n).k := by
  have hstep : ∀ n, ((new cfg k0 now).fed samples n).Spends (samples n)
      (((new cfg k0 now).fed samples n).observe (samples n)) := fun n =>
    (observed _ _).spends (bounded_of_reaches hpos hle (reaches_fed _ samples n)).1 (hquiet n)
  have hnever : ∀ n, (new cfg k0 now).left samples (n + 1) ≤ (new cfg k0 now).left samples n :=
    fun n => (rank_mono (hwork n) _).trans (hstep n).le
  have hfalls : ∀ n, (new cfg k0 now).decision samples n ≠ .hold →
      (new cfg k0 now).left samples (n + 1) < (new cfg k0 now).left samples n :=
    fun n hd => (rank_mono (hwork n) _).trans_lt ((hstep n).lt hd)
  constructor
  · intro n
    have hcard := Ranked.card_add_le hnever hfalls n
    have hstart : (new cfg k0 now).left samples 0 = 2 * cfg.maxConns * (cfg.maxConns + 1) := by
      show cfg.maxConns * (2 * cfg.maxConns + 2) = _
      ring
    omega
  · obtain ⟨n, hn⟩ := Ranked.eventually hnever hfalls
    refine ⟨n, fun m hm => ?_⟩
    induction m, hm using Nat.le_induction with
    | base => rfl
    | succ m hm ih => exact ((hstep m).stays (not_not.1 (hn m hm))).trans ih

/-- Four connections that never move a byte, sampled every second. -/
def stalledSamples (n : ℕ) : Sample := fourConns (secs n) 0 0 false

theorem governor_settles_four :
    ∃ n, ∀ m ≥ n,
      ((new {} 4 0).fed stalledSamples m).k = ((new {} 4 0).fed stalledSamples n).k := by
  have hquiet : ∀ n, (stalledSamples n).Quiet := fun _ => ⟨rfl, rfl, rfl, rfl⟩
  have hwork : ∀ n, (stalledSamples (n + 1)).remainingBytes ≤ (stalledSamples n).remainingBytes :=
    fun _ => Nat.le_refl (minSegment * 100)
  have hle : 4 ≤ ({} : GovernorConfig).maxConns := by decide
  exact (governor_settles (by decide) hle 0 stalledSamples hquiet hwork).2

end Governor

end SwiftLoad
