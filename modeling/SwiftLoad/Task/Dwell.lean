import Mathlib.Tactic.Positivity
import Mathlib.Tactic.FieldSimp
import Mathlib.Tactic.Ring
import SwiftLoad.Task.Observation

/-!
# The conversion in `effective_dwell`

`effective_dwell` divides what is left by the measured rate, takes a sixth of it, and makes a
`Duration` of it before it clamps it to the configured dwell.  `Duration::from_secs_f64` panics when
the number of seconds does not fit `u64`.  `Governor.observe` has the value of `effective_dwell`
where there is one; here the panic is `none`.

* `Governor.checkedObserve` : `observe` with the conversion that may fail.
* `Governor.checkedObserve_eq` : it is `observe`, or it panics.
* `Governor.observe_total_iff` : for which states and samples it does not.
-/

namespace SwiftLoad

namespace Governor

variable {g : Governor} {s : Sample} {elapsed moved remaining : ℕ}

/-! ### The conversion -/

/-- A duration in seconds. -/
def seconds (d : Nanos) : ℚ := d / (secs 1 : ℕ)

/-- The number of seconds that `effective_dwell` converts. -/
def budgetSecs (elapsed : Nanos) (moved remaining : ℕ) : ℚ :=
  max (remaining / (moved / seconds elapsed) / 6) (seconds minDwell)

/-- `Duration::from_secs_f64`, in nanoseconds: it panics when the seconds do not fit `u64`. -/
def fromSecs (x : ℚ) : Option ℚ := if 0 ≤ x ∧ x < 2 ^ 64 then some (x * (secs 1 : ℕ)) else none

/-- `effective_dwell`. -/
def checkedDwell (elapsed : Nanos) (moved remaining : ℕ) (g : Governor) : Option ℚ :=
  if elapsed < minDwell ∨ moved = 0 then some g.cfg.dwell
  else (fromSecs (budgetSecs elapsed moved remaining)).map fun budget => min budget g.cfg.dwell

/-- `measure`: past the warmup, it asks for the dwell. -/
def checkedMeasure (s : Sample) (g : Governor) : Option (Governor × Decision) :=
  if g.window = none ∧ s.bytesTotal - g.bytesAtChange < warmupBytesPerConn * g.k ∧
      s.now - g.changedAt < g.cfg.warmup then
    some (g.measure s)
  else
    let w := g.window.getD ⟨s.now, s.bytesTotal⟩
    (g.checkedDwell (s.now - w.started) (s.bytesTotal - w.startBytes) s.remainingBytes).map
      fun _ => g.measure s

/-- `observe`: two of its phases measure. -/
def checkedObserve (s : Sample) (g : Governor) : Option (Governor × Decision) :=
  match s.rateLimited with
  | some _ => some (g.observe s)
  | none =>
    if g.DiskBound s ∨ g.Bursts s then some (g.observe s)
    else
      match g.phase with
      | .backOff => some (g.observe s)
      | .baseline | .ramp => (g.noted s).checkedMeasure s
      | .hold => some (g.observe s)

theorem seconds_pos {d : Nanos} (h : 0 < d) : 0 < seconds d := by
  unfold seconds secs
  positivity

theorem budgetSecs_nonneg (elapsed : Nanos) (moved remaining : ℕ) :
    0 ≤ budgetSecs elapsed moved remaining :=
  le_max_of_le_right (seconds_pos (by decide)).le

/-- The conversion succeeds when the work that is left, at the measured rate, takes less than six
times the largest duration. -/
theorem budgetSecs_lt_iff (hmoved : 0 < moved) :
    budgetSecs elapsed moved remaining < 2 ^ 64 ↔
      remaining * elapsed < 6 * 2 ^ 64 * (secs 1 * moved) := by
  have hfloor : seconds minDwell < 2 ^ 64 := by
    unfold seconds minDwell millis secs
    norm_num
  have hnanos : (0 : ℚ) < (secs 1 : ℕ) := by unfold secs; norm_num
  have hmoved' : (0 : ℚ) < moved := by exact_mod_cast hmoved
  have hquot : (remaining : ℚ) / (moved / seconds elapsed) / 6 =
      remaining * elapsed / (6 * ((secs 1 : ℕ) * moved)) := by
    unfold seconds
    field_simp
  rw [budgetSecs, max_lt_iff, and_iff_left hfloor, hquot, div_lt_iff₀ (by positivity)]
  rw [show (2 : ℚ) ^ 64 * (6 * ((secs 1 : ℕ) * moved)) =
    ((6 * 2 ^ 64 * (secs 1 * moved) : ℕ) : ℚ) by push_cast; ring]
  exact_mod_cast Iff.rfl

theorem budgetSecs_mul (elapsed : Nanos) (moved remaining : ℕ) :
    budgetSecs elapsed moved remaining * (secs 1 : ℕ) =
      max ((remaining : ℚ) / (moved / elapsed) / 6) minDwell := by
  have hnanos : (0 : ℚ) < (secs 1 : ℕ) := by unfold secs; norm_num
  have hleft : (remaining : ℚ) / (moved / seconds elapsed) / 6 * (secs 1 : ℕ) =
      remaining / (moved / elapsed) / 6 := by
    unfold seconds
    field_simp
  have hright : seconds minDwell * (secs 1 : ℕ) = minDwell := div_mul_cancel₀ _ hnanos.ne'
  rw [budgetSecs, max_mul_of_nonneg _ _ hnanos.le, hleft, hright]

theorem checkedDwell_of_lt (h : budgetSecs elapsed moved remaining < 2 ^ 64) :
    g.checkedDwell elapsed moved remaining = some (g.effectiveDwell elapsed moved remaining) := by
  unfold checkedDwell effectiveDwell
  split_ifs
  · rfl
  · rw [fromSecs, if_pos ⟨budgetSecs_nonneg elapsed moved remaining, h⟩, Option.map_some,
      budgetSecs_mul]

theorem checkedDwell_of_moved_eq_zero :
    g.checkedDwell elapsed 0 remaining = some (g.effectiveDwell elapsed 0 remaining) := by
  rw [checkedDwell, effectiveDwell, if_pos (Or.inr rfl), if_pos (Or.inr rfl)]

theorem checkedDwell_eq_none (helapsed : minDwell ≤ elapsed) (hmoved : 0 < moved)
    (h : ¬budgetSecs elapsed moved remaining < 2 ^ 64) :
    g.checkedDwell elapsed moved remaining = none := by
  rw [checkedDwell, if_neg (by rw [not_or]; exact ⟨Nat.not_lt.2 helapsed, hmoved.ne'⟩), fromSecs,
    if_neg fun hfits => h hfits.2]
  rfl

/-! ### The panic -/

/-- The observation measures, past the warmup. -/
structure Measures (s : Sample) (g : Governor) : Prop where
  undisturbed : g.Undisturbed s
  phase : g.phase = .baseline ∨ g.phase = .ramp
  warm : ¬g.WarmingUp s

/-- Something moved since the window was opened, but so little, over so long, that what is left
would take six times the largest duration. -/
def Stalls (s : Sample) (g : Governor) : Prop :=
  0 < s.bytesTotal - (g.windowAt s).startBytes ∧
    6 * 2 ^ 64 * (secs 1 * (s.bytesTotal - (g.windowAt s).startBytes)) ≤
      s.remainingBytes * (s.now - (g.windowAt s).started)

instance (s : Sample) (g : Governor) : Decidable (g.Stalls s) :=
  inferInstanceAs (Decidable (_ ∧ _))

/-- With `u64` work left, a stalled window is no short one. -/
theorem Stalls.minDwell_le (h : g.Stalls s) (hmax : s.remainingBytes ≤ u64Max) :
    minDwell ≤ s.now - (g.windowAt s).started := by
  obtain ⟨hpos, hle⟩ := h
  by_contra hlt
  have hprod : s.remainingBytes * (s.now - (g.windowAt s).started) ≤ u64Max * minDwell :=
    Nat.mul_le_mul hmax (Nat.not_le.1 hlt).le
  have hone : 6 * 2 ^ 64 * secs 1 ≤
      6 * 2 ^ 64 * (secs 1 * (s.bytesTotal - (g.windowAt s).startBytes)) :=
    Nat.mul_le_mul_left _ (Nat.le_mul_of_pos_right _ hpos)
  have hconst : u64Max * minDwell < 6 * 2 ^ 64 * secs 1 := by decide
  exact absurd (hone.trans (hle.trans hprod)) (Nat.not_le.2 hconst)

theorem checkedMeasure_eq_none (hwarm : ¬g.WarmingUp s) (hmax : s.remainingBytes ≤ u64Max)
    (h : g.Stalls s) : g.checkedMeasure s = none := by
  have hover : ¬budgetSecs (s.now - (g.windowAt s).started)
      (s.bytesTotal - (g.windowAt s).startBytes) s.remainingBytes < 2 ^ 64 := by
    rw [budgetSecs_lt_iff h.1]
    exact Nat.not_lt.2 h.2
  have hdwell := checkedDwell_eq_none (g := g) (h.minDwell_le hmax) h.1 hover
  refine (if_neg hwarm).trans ?_
  dsimp only
  rw [← windowAt, hdwell]
  rfl

theorem checkedMeasure_eq_some (h : g.WarmingUp s ∨ ¬g.Stalls s) :
    g.checkedMeasure s = some (g.measure s) := by
  by_cases hwarm : g.WarmingUp s
  · exact if_pos hwarm
  · have hstalls := h.resolve_left hwarm
    refine (if_neg hwarm).trans ?_
    dsimp only
    rw [← windowAt]
    rcases Nat.eq_zero_or_pos (s.bytesTotal - (g.windowAt s).startBytes) with hzero | hpos
    · rw [hzero, checkedDwell_of_moved_eq_zero]
      rfl
    · have hfits : budgetSecs (s.now - (g.windowAt s).started)
          (s.bytesTotal - (g.windowAt s).startBytes) s.remainingBytes < 2 ^ 64 := by
        rw [budgetSecs_lt_iff hpos]
        exact Nat.not_le.1 fun hle => hstalls ⟨hpos, hle⟩
      rw [checkedDwell_of_lt hfits]
      rfl

/-- An observation that is pre-empted, or of a governor in another phase, does not measure. -/
theorem checkedObserve_of_not_measuring (h : ¬(g.Undisturbed s ∧
    (g.phase = .baseline ∨ g.phase = .ramp))) : g.checkedObserve s = some (g.observe s) := by
  unfold checkedObserve
  cases hrate : s.rateLimited with
  | some _ => rfl
  | none =>
    dsimp only
    split_ifs with hpre
    · rfl
    · obtain ⟨hdisk, hburst⟩ := not_or.1 hpre
      have hu : g.Undisturbed s := ⟨hrate, hdisk, hburst⟩
      cases hphase : g.phase with
      | baseline => exact absurd ⟨hu, Or.inl hphase⟩ h
      | ramp => exact absurd ⟨hu, Or.inr hphase⟩ h
      | hold => rfl
      | backOff => rfl

theorem checkedObserve_of_measuring (hu : g.Undisturbed s)
    (hphase : g.phase = .baseline ∨ g.phase = .ramp) :
    g.checkedObserve s = (g.noted s).checkedMeasure s := by
  unfold checkedObserve
  rw [hu.rate]
  dsimp only
  rw [if_neg (not_or.2 ⟨hu.disk, hu.errors⟩)]
  rcases hphase with h | h
  all_goals rw [h]

/-- **When `observe` panics.**  For a sample with `u64` work left, the conversion succeeds, and the
observation has its value, exactly when it does not measure, nothing moved since the window was
opened, or what is left, times the length of the window, is less than six times the largest number
of seconds times what moved. -/
theorem observe_total_iff (g : Governor) (s : Sample) (hmax : s.remainingBytes ≤ u64Max) :
    g.checkedObserve s = some (g.observe s) ↔ ¬(g.Measures s ∧ g.Stalls s) := by
  by_cases hm : g.Undisturbed s ∧ (g.phase = .baseline ∨ g.phase = .ramp)
  · obtain ⟨hu, hphase⟩ := hm
    rw [checkedObserve_of_measuring hu hphase, (observe_undisturbed hu).1 hphase]
    by_cases hwarm : g.WarmingUp s
    · exact iff_of_true (checkedMeasure_eq_some (Or.inl hwarm)) fun h => h.1.warm hwarm
    by_cases hstalls : g.Stalls s
    · refine iff_of_false ?_ (not_not.2 ⟨⟨hu, hphase, hwarm⟩, hstalls⟩)
      rw [checkedMeasure_eq_none (g := g.noted s) hwarm hmax hstalls]
      simp
    · exact iff_of_true (checkedMeasure_eq_some (g := g.noted s) (Or.inr hstalls))
        fun h => hstalls h.2
  · exact iff_of_true (checkedObserve_of_not_measuring hm)
      fun h => hm ⟨h.1.undisturbed, h.1.phase⟩

/-- A tick seven seconds after the window was opened, of a download of unknown size, in which one
byte has arrived. -/
def lateTick : Sample :=
  ⟨secs 7, 1, 4, 0, none, false, u64Max, true⟩

/-- A governor that measures its baseline. -/
def baselining : Governor := { new {} 4 0 with window := some ⟨0, 0⟩ }

/-- The same tick near the end of a download. -/
theorem observe_total_short :
    baselining.checkedObserve { lateTick with remainingBytes := 1000 } =
      some (baselining.observe { lateTick with remainingBytes := 1000 }) :=
  (observe_total_iff baselining { lateTick with remainingBytes := 1000 } (by decide)).2
    fun h => absurd h.2 (by decide)

theorem observe_panics :
    ¬ ∀ (g : Governor) (s : Sample), s.remainingBytes ≤ u64Max →
      (g.windowAt s).startBytes ≤ s.bytesTotal → g.checkedObserve s = some (g.observe s) := by
  intro h
  have hsome := h baselining lateTick le_rfl (by decide)
  have hu : baselining.Undisturbed lateTick := ⟨rfl, by decide, by decide⟩
  have hnone : baselining.checkedObserve lateTick = none := by
    rw [checkedObserve_of_measuring hu (Or.inl rfl)]
    exact checkedMeasure_eq_none (fun hwarm => by simp [WarmingUp, baselining, noted,
      noteBackpressure] at hwarm) le_rfl (by decide)
  rw [hnone] at hsome
  simp at hsome

end Governor

end SwiftLoad
