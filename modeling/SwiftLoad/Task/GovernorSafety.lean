import SwiftLoad.Task.Observation

/-!
# What the governor guarantees

* `Governor.Bounded` : the invariant of the connection target and its ceiling.
* `governor_bounded` : **the target stays within the ceiling, the ceiling only falls, growth stays
  within every limit, and after a rate limit there is none.**
* `observe_lt_iff` : when an observation lowers the target.
* `grows_calm_iff` : when the governor grows on an adverse sample.
* `unpaid_level_iff` : when a level that brings nothing is given up.
-/

namespace SwiftLoad

namespace Governor

variable {g g' : Governor} {s : Sample} {r : Governor × Decision} {n : ℕ}

/-! ### Bounds -/

/-- The invariant of the connection target and its ceiling. -/
structure Bounded (g : Governor) : Prop where
  pos : 0 < g.k
  le : g.k ≤ g.ceiling
  max : g.ceiling ≤ g.cfg.maxConns

/-- An outcome that keeps the bounds. -/
structure Keeps (g : Governor) (s : Sample) (r : Governor × Decision) : Prop where
  bounded : r.1.Bounded
  cfg : r.1.cfg = g.cfg
  ceiling : r.1.ceiling ≤ g.ceiling
  spawn : ∀ n, r.2 = .spawnTo n → g.k < n ∧ n ≤ g.growthLimit s ∧ r.1.k = n

theorem Bounded.new {cfg : GovernorConfig} {k0 : ℕ} (hpos : 0 < k0) (hle : k0 ≤ cfg.maxConns)
    (now : Nanos) : (new cfg k0 now).Bounded where
  pos := lt_max_of_lt_left hpos
  le := max_le hle (hpos.trans_le hle)
  max := le_rfl

theorem Keeps.of_eq (h : g'.Keeps s r) (hcfg : g'.cfg = g.cfg) (hk : g'.k = g.k)
    (hceiling : g'.ceiling = g.ceiling) : g.Keeps s r where
  bounded := h.bounded
  cfg := h.cfg.trans hcfg
  ceiling := h.ceiling.trans_eq hceiling
  spawn := by
    intro n hn
    have := h.spawn n hn
    unfold growthLimit at *
    rwa [hk, hcfg, hceiling] at this

theorem Grown.keeps (h : g.Grown s r) (hb : g.Bounded) : g.Keeps s r := by
  cases h with
  | untaken => exact ⟨⟨hb.pos, hb.le, hb.max⟩, rfl, le_rfl, fun _ hn => nomatch hn⟩
  | pressed => exact ⟨⟨hb.pos, hb.le, hb.max⟩, rfl, le_rfl, fun _ hn => nomatch hn⟩
  | full => exact ⟨⟨hb.pos, hb.le, hb.max⟩, rfl, le_rfl, fun _ hn => nomatch hn⟩
  | grows next _ _ hlt hle =>
    have hceiling : next ≤ g.ceiling := hle.trans ((min_le_left _ _).trans (min_le_left _ _))
    refine ⟨⟨hb.pos.trans hlt, hceiling, hb.max⟩, rfl, le_rfl, ?_⟩
    intro n hn
    obtain rfl := Decision.spawnTo.inj hn
    exact ⟨hlt, hle, rfl⟩

theorem settleAt_pos (target : ℕ) (g : Governor) : 0 < g.settleAt target :=
  lt_max_of_lt_right Nat.one_pos

theorem settleAt_le (hb : g.Bounded) (target : ℕ) : g.settleAt target ≤ g.ceiling :=
  max_le (min_le_right _ _) (hb.pos.trans_le hb.le)

/-- Settling below a level that did not pay. -/
theorem keeps_settle (hb : g.Bounded) (mid : Option ℕ) (level target : ℕ) :
    g.Keeps s (({ g with
        midCandidate := mid
        phase := .hold
        lastProbe := s.now
        ceiling := min g.ceiling (max (level - 1) (g.settleAt target)) } : Governor).changeTo
          (g.settleAt target) s.now, .releaseToken (g.settleAt target)) where
  bounded := ⟨settleAt_pos _ _, le_min (settleAt_le hb _) (le_max_right _ _),
    (min_le_left _ _).trans hb.max⟩
  cfg := rfl
  ceiling := min_le_left _ _
  spawn := fun _ hn => nomatch hn

theorem SteppedBack.keeps {prevK level : ℕ} {prevRate rate : ℚ}
    (h : g.SteppedBack prevK prevRate level rate s r) (hb : g.Bounded) (hlevel : level = g.k) :
    g.Keeps s r := by
  cases h with
  | settled mid h => exact keeps_settle hb _ _ _
  | midpoint mid h hlt hle =>
    refine ⟨⟨(Nat.zero_le _).trans_lt hlt, ?_, hb.max⟩, rfl, le_rfl, fun _ hn => nomatch hn⟩
    show mid ≤ g.ceiling
    have := hb.le
    omega
  | back h hmid =>
    have hkeep := keeps_settle (s := s) hb g.midCandidate level prevK
    exact hkeep

theorem noteLoss_eq (gain perConn : ℚ) (g : Governor) :
    (g.noteLoss gain perConn).cfg = g.cfg ∧ (g.noteLoss gain perConn).k = g.k ∧
      (g.noteLoss gain perConn).ceiling = g.ceiling ∧
      (g.noteLoss gain perConn).midCandidate = g.midCandidate ∧
      (g.noteLoss gain perConn).phase = g.phase ∧
      (g.noteLoss gain perConn).baseline = g.baseline := by
  unfold noteLoss
  split_ifs <;> exact ⟨rfl, rfl, rfl, rfl, rfl, rfl⟩

theorem Bounded.of_eq (h : g.Bounded) (hcfg : g'.cfg = g.cfg) (hk : g'.k = g.k)
    (hceiling : g'.ceiling = g.ceiling) : g'.Bounded := by
  refine ⟨?_, ?_, ?_⟩
  · rw [hk]
    exact h.pos
  · rw [hk, hceiling]
    exact h.le
  · rw [hcfg, hceiling]
    exact h.max

/-- **One observation keeps the bounds.** -/
theorem Observed.keeps (h : g.Observed s r) (hb : g.Bounded) : g.Keeps s r := by
  cases h with
  | limited retryAfter h =>
    have hle := hb.le
    have hpos := hb.pos
    have hmax := hb.max
    have hhalf : max (g.k / 2) 1 ≤ g.ceiling := by omega
    exact ⟨⟨lt_max_of_lt_right Nat.one_pos, le_rfl, hhalf.trans hmax⟩, rfl, hhalf,
      fun _ hn => nomatch hn⟩
  | diskBound => exact ⟨⟨hb.pos, le_rfl, hb.le.trans hb.max⟩, rfl, hb.le, fun _ hn => nomatch hn⟩
  | shed _ _ h =>
    refine ⟨⟨Nat.sub_pos_of_lt h.2, ?_, (min_le_left _ _).trans hb.max⟩, rfl, min_le_left _ _,
      fun _ hn => nomatch hn⟩
    exact le_min ((Nat.sub_le _ _).trans hb.le) (Nat.sub_le _ _)
  | cooled => exact ⟨⟨hb.pos, hb.le, hb.max⟩, rfl, le_rfl, fun _ hn => nomatch hn⟩
  | measuring => exact ⟨⟨hb.pos, hb.le, hb.max⟩, rfl, le_rfl, fun _ hn => nomatch hn⟩
  | first _ _ _ hr => exact (hr.keeps ⟨hb.pos, hb.le, hb.max⟩).of_eq rfl rfl rfl
  | paid _ _ _ _ _ _ _ hr => exact (hr.keeps ⟨hb.pos, hb.le, hb.max⟩).of_eq rfl rfl rfl
  | unpaid prevK prevRate _ _ _ _ _ hr =>
    obtain ⟨hcfg, hk, hceiling, -⟩ := noteLoss_eq (gainOver prevRate (g.rateAt s))
      (perConnRatio prevK prevRate g.k (g.rateAt s)) ((g.noted s).closed s)
    exact (hr.keeps (hb.of_eq hcfg hk hceiling) hk.symm).of_eq hcfg hk hceiling
  | settled => exact ⟨⟨hb.pos, hb.le, hb.max⟩, rfl, le_rfl, fun _ hn => nomatch hn⟩
  | reprobed _ h =>
    have hlimit : min (g.k + 2) (g.growthLimit s) ≤ g.ceiling :=
      (min_le_right _ _).trans ((min_le_left _ _).trans (min_le_left _ _))
    have hlt : g.k < min (g.k + 2) (g.growthLimit s) := lt_min (by omega) h.room
    refine ⟨⟨(Nat.zero_le _).trans_lt hlt, hlimit, hb.max⟩, rfl, le_rfl, ?_⟩
    intro n hn
    obtain rfl := Decision.spawnTo.inj hn
    exact ⟨hlt, min_le_right _ _, rfl⟩

/-! ### After a rate limit -/

/-- The governor has been rate limited. -/
structure Subdued (g : Governor) : Prop where
  phase : g.phase = .backOff ∨ g.phase = .hold
  saturated : g.saturationDetected = true

theorem Subdued.not_measuring (h : g.Subdued) : ¬(g.phase = .baseline ∨ g.phase = .ramp) := by
  rcases h.phase with hp | hp <;> rw [hp] <;> decide

/-- **A governor that has been rate limited grows no more.** -/
theorem Observed.subdued (h : g.Observed s r) (hb : 0 < g.k)
    (hs : g.Subdued ∨ s.rateLimited.isSome = true) :
    r.1.Subdued ∧ r.1.k ≤ g.k ∧ ∀ n, r.2 ≠ .spawnTo n := by
  cases h with
  | limited retryAfter h =>
    refine ⟨⟨.inl rfl, rfl⟩, ?_, fun _ hn => nomatch hn⟩
    show max (g.k / 2) 1 ≤ g.k
    omega
  | diskBound hrate =>
    have hs : g.Subdued := hs.resolve_right (by simp [hrate])
    exact ⟨⟨.inr rfl, hs.saturated⟩, le_rfl, fun _ hn => nomatch hn⟩
  | shed hrate =>
    have hs : g.Subdued := hs.resolve_right (by simp [hrate])
    exact ⟨⟨.inr rfl, hs.saturated⟩, Nat.sub_le _ _, fun _ hn => nomatch hn⟩
  | cooled hu =>
    have hs : g.Subdued := hs.resolve_right (by simp [hu.rate])
    exact ⟨⟨.inr rfl, hs.saturated⟩, le_rfl, fun _ hn => nomatch hn⟩
  | settled hu hphase =>
    have hs : g.Subdued := hs.resolve_right (by simp [hu.rate])
    exact ⟨⟨.inr hphase, hs.saturated⟩, le_rfl, fun _ hn => nomatch hn⟩
  | reprobed hu h =>
    have hs : g.Subdued := hs.resolve_right (by simp [hu.rate])
    exact absurd (h.unsaturated.symm.trans hs.saturated) (by decide)
  | measuring w hu hphase =>
    have hs : g.Subdued := hs.resolve_right (by simp [hu.rate])
    exact absurd hphase hs.not_measuring
  | first hu hclose hphase =>
    have hs : g.Subdued := hs.resolve_right (by simp [hu.rate])
    exact absurd (hphase.imp_right And.left) hs.not_measuring
  | paid _ _ hu _ hphase =>
    have hs : g.Subdued := hs.resolve_right (by simp [hu.rate])
    exact absurd (.inr hphase) hs.not_measuring
  | unpaid _ _ hu _ hphase =>
    have hs : g.Subdued := hs.resolve_right (by simp [hu.rate])
    exact absurd (.inr hphase) hs.not_measuring

/-! ### Runs -/

theorem bounded_of_reaches {cfg : GovernorConfig} {k0 : ℕ} {now : Nanos} (hpos : 1 ≤ k0)
    (hle : k0 ≤ cfg.maxConns) (h : governorMachine.Reaches (new cfg k0 now) g) :
    g.Bounded ∧ g.cfg = cfg := by
  refine h.invariant (I := fun g => g.Bounded ∧ g.cfg = cfg) ⟨.new hpos hle now, rfl⟩ ?_
  rintro g s _ ⟨hb, hcfg⟩ - hst
  obtain rfl := Option.some.inj hst
  have hkeep := (observed s g).keeps hb
  exact ⟨hkeep.bounded, hkeep.cfg.trans hcfg⟩

theorem subdued_of_reaches (h : governorMachine.Reaches g g') (hb : g.Bounded) (hs : g.Subdued) :
    g'.Bounded ∧ g'.Subdued := by
  refine h.invariant (I := fun g => g.Bounded ∧ g.Subdued) ⟨hb, hs⟩ ?_
  rintro g s _ ⟨hb, hs⟩ - hst
  obtain rfl := Option.some.inj hst
  exact ⟨((observed s g).keeps hb).bounded, ((observed s g).subdued hb.pos (.inl hs)).1⟩

/-- **Safety of the governor.**  Over any samples the target stays within the ceiling and the
ceiling within the configured maximum; the ceiling never rises; what is asked for is above the
target and within every limit; and from a rate limit on the target never rises again and nothing
is asked for. -/
theorem governor_bounded {cfg : GovernorConfig} {k0 : ℕ} {now : Nanos} {g : Governor}
    (hpos : 1 ≤ k0) (hle : k0 ≤ cfg.maxConns)
    (h : governorMachine.Reaches (new cfg k0 now) g) :
    (1 ≤ g.k ∧ g.k ≤ g.ceiling ∧ g.ceiling ≤ cfg.maxConns) ∧
    ∀ s : Sample, (g.observe s).1.ceiling ≤ g.ceiling ∧
      (∀ n, (g.observe s).2 = .spawnTo n → g.k < n ∧
        n ≤ min (min g.ceiling cfg.maxConns) (max 1 (s.remainingBytes / minSegment))) ∧
      (s.rateLimited.isSome = true →
        (g.observe s).1.k ≤ g.k ∧ (∀ n, (g.observe s).2 ≠ .spawnTo n) ∧
        ∀ g', governorMachine.Reaches (g.observe s).1 g' → ∀ s' : Sample,
          (g'.observe s').1.k ≤ g'.k ∧ ∀ n, (g'.observe s').2 ≠ .spawnTo n) := by
  obtain ⟨hb, rfl⟩ := bounded_of_reaches hpos hle h
  refine ⟨⟨hb.pos, hb.le, hb.max⟩, fun s => ?_⟩
  have hkeep := (observed s g).keeps hb
  refine ⟨hkeep.ceiling, ?_, ?_⟩
  · intro n hn
    obtain ⟨hlt, hlimit, -⟩ := hkeep.spawn n hn
    exact ⟨hlt, max_comm (s.remainingBytes / minSegment) 1 ▸ hlimit⟩
  · intro hrate
    obtain ⟨hs, hk, hspawn⟩ := (observed s g).subdued hb.pos (.inr hrate)
    refine ⟨hk, hspawn, fun g' hg' s' => ?_⟩
    obtain ⟨hb', hs'⟩ := subdued_of_reaches hg' hkeep.bounded hs
    exact ((observed s' g').subdued hb'.pos (.inl hs')).2

/-- A sample of four connections with much work left. -/
def fourConns (now : Nanos) (bytes errors : ℕ) (pressed : Bool) : Sample where
  now := now
  bytesTotal := bytes
  conns := 4
  errorsSinceLast := errors
  rateLimited := none
  diskBackpressure := pressed
  remainingBytes := minSegment * 100
  probeToken := true

/-- Four connections in their first window. -/
def firstWindow : Governor :=
  ((new {} 4 0).observe (fourConns (secs 1) (4 * 1024 * 1024) 0 false)).1

/-- The sample that closes it. -/
def firstClosed : Sample := fourConns (secs 6) (100 * 1024 * 1024) 0 false

theorem reaches_firstWindow : governorMachine.Reaches (new {} 4 0) firstWindow :=
  .single trivial (e := fourConns (secs 1) (4 * 1024 * 1024) 0 false) rfl

theorem firstWindow_grows : (firstWindow.observe firstClosed).2 = .spawnTo 8 := by decide +kernel

/-- The first window makes four connections eight.  Then the server asks to slow down, and the
target never rises again. -/
theorem governor_bounded_four :
    (firstWindow.observe firstClosed).2 = .spawnTo 8 ∧ firstWindow.k < 8 ∧
      8 ≤ min (min firstWindow.ceiling ({} : GovernorConfig).maxConns)
        (max 1 (firstClosed.remainingBytes / minSegment)) ∧
      ∃ g, governorMachine.exec (new {} 4 0)
          [fourConns (secs 1) (4 * 1024 * 1024) 0 false, firstClosed,
            { firstClosed with now := secs 7, rateLimited := some none }] = some g ∧
        g.k ≤ (firstWindow.observe firstClosed).1.k ∧
        ∀ s, (g.observe s).1.k ≤ g.k ∧ ∀ n, (g.observe s).2 ≠ .spawnTo n := by
  obtain ⟨-, hspawn, -⟩ :=
    (governor_bounded (by decide) (by decide) reaches_firstWindow).2 firstClosed
  obtain ⟨hlt, hle⟩ := hspawn 8 firstWindow_grows
  have hgrown : governorMachine.Reaches (new {} 4 0) (firstWindow.observe firstClosed).1 :=
    reaches_firstWindow.tail trivial (e := firstClosed) rfl
  obtain ⟨-, -, hrate⟩ := (governor_bounded (by decide) (by decide) hgrown).2
    { firstClosed with now := secs 7, rateLimited := some none }
  obtain ⟨hk, -, hlater⟩ := hrate rfl
  exact ⟨firstWindow_grows, hlt, hle, _, rfl, hk, hlater _ .refl⟩

/-! ### Measured levels -/

/-- The levels that the governor knows are positive. -/
structure Positive (g : Governor) : Prop where
  pos : 0 < g.k
  baseline : ∀ b ∈ g.baseline, 0 < b.1
  best : ∀ b ∈ g.best, 0 < b.1

/-- The invariant of a governor with any start: only a level above the first one is judged. -/
structure Ramping (g : Governor) : Prop extends g.Positive where
  two : g.phase = .ramp → 2 ≤ g.k ∧ g.k ≤ g.ceiling

theorem Positive.of_eq (h : g.Positive) (hk : g'.k = g.k) (hbase : g'.baseline = g.baseline)
    (hbest : g'.best = g.best) : g'.Positive := by
  refine ⟨?_, ?_, ?_⟩
  · rw [hk]
    exact h.pos
  · rw [hbase]
    exact h.baseline
  · rw [hbest]
    exact h.best

/-- The governor after a window is closed, with the level as the one to compare against. -/
theorem Positive.closed (h : g.Positive) (s : Sample) : (g.closed s).Positive := by
  refine ⟨h.pos, h.baseline, fun b hb => ?_⟩
  change b ∈ (if _ then some (g.k, g.rateAt s) else g.best) at hb
  split_ifs at hb
  · obtain rfl := Option.mem_some.1 hb
    exact h.pos
  · exact h.best b hb

theorem Positive.baselined (h : g.Positive) (rate : ℚ) (g' : Governor) (hk : g'.k = g.k)
    (hbase : g'.baseline = some (g.k, rate)) (hbest : g'.best = g.best) : g'.Positive := by
  refine ⟨hk ▸ h.pos, fun b hb => ?_, hbest ▸ h.best⟩
  rw [hbase] at hb
  obtain rfl := Option.mem_some.1 hb
  exact h.pos

theorem Grown.ramping (h : g.Grown s r) (hpos : g.Positive) : r.1.Ramping := by
  cases h with
  | untaken => exact ⟨hpos.of_eq rfl rfl rfl, fun hp => nomatch hp⟩
  | pressed => exact ⟨hpos.of_eq rfl rfl rfl, fun hp => nomatch hp⟩
  | full => exact ⟨hpos.of_eq rfl rfl rfl, fun hp => nomatch hp⟩
  | grows next _ _ hlt hle =>
    have hceiling : next ≤ g.ceiling := hle.trans ((min_le_left _ _).trans (min_le_left _ _))
    exact ⟨⟨hpos.pos.trans hlt, hpos.baseline, hpos.best⟩,
      fun _ => ⟨Nat.lt_of_le_of_lt hpos.pos hlt, hceiling⟩⟩

theorem SteppedBack.ramping {prevK level : ℕ} {prevRate rate : ℚ}
    (h : g.SteppedBack prevK prevRate level rate s r) (hpos : g.Positive) (hle : g.k ≤ g.ceiling)
    (hprev : 0 < prevK) (hlevel : level = g.k) : r.1.Ramping := by
  cases h with
  | settled => exact ⟨⟨settleAt_pos _ _, hpos.baseline, hpos.best⟩, fun hp => nomatch hp⟩
  | midpoint mid h hlt hmid =>
    refine ⟨⟨hprev.trans hlt, hpos.baseline, hpos.best⟩,
      fun _ => ⟨Nat.lt_of_le_of_lt hprev hlt, ?_⟩⟩
    show mid ≤ g.ceiling
    omega
  | back => exact ⟨⟨settleAt_pos _ _, hpos.baseline, hpos.best⟩, fun hp => nomatch hp⟩

theorem Observed.ramping (h : g.Observed s r) (hg : g.Ramping) : r.1.Ramping := by
  have hpos := hg.toPositive
  have hclosed : ((g.noted s).closed s).Positive :=
    Positive.closed (g := g.noted s) (hpos.of_eq rfl rfl rfl) s
  cases h with
  | limited =>
    exact ⟨⟨lt_max_of_lt_right Nat.one_pos, hpos.baseline, hpos.best⟩, fun hp => nomatch hp⟩
  | diskBound => exact ⟨hpos.of_eq rfl rfl rfl, fun hp => nomatch hp⟩
  | shed _ _ h =>
    exact ⟨⟨Nat.sub_pos_of_lt h.2, hpos.baseline, hpos.best⟩, fun hp => nomatch hp⟩
  | cooled => exact ⟨hpos.of_eq rfl rfl rfl, fun hp => nomatch hp⟩
  | measuring => exact ⟨hpos.of_eq rfl rfl rfl, hg.two⟩
  | first _ _ _ hr => exact hr.ramping (hclosed.baselined _ _ rfl rfl rfl)
  | paid _ _ _ _ _ _ _ hr => exact hr.ramping (hclosed.baselined _ _ rfl rfl rfl)
  | unpaid prevK prevRate _ _ hphase hbase _ hr =>
    obtain ⟨-, hk, hceiling, -, -, hb⟩ := noteLoss_eq (gainOver prevRate (g.rateAt s))
      (perConnRatio prevK prevRate g.k (g.rateAt s)) ((g.noted s).closed s)
    refine hr.ramping (hclosed.of_eq hk hb ?_) ?_ (hpos.baseline _ hbase) hk.symm
    · unfold noteLoss
      split_ifs <;> rfl
    · rw [hk, hceiling]
      exact (hg.two hphase).2
  | settled _ hphase => exact ⟨hpos.of_eq rfl rfl rfl, fun hp => by
      rw [show (g.noted s).phase = g.phase from rfl, hphase] at hp; cases hp⟩
  | reprobed _ h =>
    have hlt : g.k < min (g.k + 2) (g.growthLimit s) := lt_min (by omega) h.room
    refine ⟨⟨hpos.pos.trans hlt, hpos.best, hpos.best⟩, fun _ => ⟨?_, ?_⟩⟩
    · exact Nat.lt_of_le_of_lt hpos.pos hlt
    · exact (min_le_right _ _).trans ((min_le_left _ _).trans (min_le_left _ _))

theorem ramping_of_reaches {cfg : GovernorConfig} {k0 : ℕ} {now : Nanos}
    (h : governorMachine.Reaches (new cfg k0 now) g) : g.Ramping := by
  refine h.invariant ⟨⟨lt_max_of_lt_right Nat.one_pos, ?_, ?_⟩, fun hp => nomatch hp⟩ ?_
  · exact fun _ hb => nomatch hb
  · exact fun _ hb => nomatch hb
  · rintro g s _ hg - hst
    obtain rfl := Option.some.inj hst
    exact (observed s g).ramping hg

/-! ### Fewer connections -/

/-- The level to return to from one that did not pay. -/
def comeback (prevK : ℕ) (prevRate rate : ℚ) (g : Governor) : ℕ :=
  g.midCandidate.elim prevK fun mid => if prevRate < rate then mid else prevK

/-- The level just measured did not pay, and the governor returns to a lower one. -/
def Drops (s : Sample) (g : Governor) : Prop :=
  g.Undisturbed s ∧ g.Closes s ∧ g.phase = .ramp ∧
    ∃ prevK prevRate, g.baseline = some (prevK, prevRate) ∧
      gainOver prevRate (g.rateAt s) < g.cfg.gainThreshold ∧
      g.comeback prevK prevRate (g.rateAt s) < g.k

/-- Errors shed a connection, or a level did not pay. -/
def Lowers (s : Sample) (g : Governor) : Prop := ¬g.DiskBound s ∧ g.Bursts s ∨ g.Drops s

theorem Grown.le (h : g.Grown s r) : g.k ≤ r.1.k := by
  cases h with
  | untaken => exact le_rfl
  | pressed => exact le_rfl
  | full => exact le_rfl
  | grows next _ _ hlt => exact hlt.le

theorem settleAt_lt_iff {target level : ℕ} (htwo : 2 ≤ level) (hle : level ≤ g.ceiling) :
    g.settleAt target < level ↔ target < level := by
  unfold settleAt
  omega

theorem SteppedBack.k_lt_iff {prevK level : ℕ} {prevRate rate : ℚ}
    (h : g.SteppedBack prevK prevRate level rate s r) (htwo : 2 ≤ level)
    (hle : level ≤ g.ceiling) : r.1.k < level ↔ g.comeback prevK prevRate rate < level := by
  cases h with
  | settled mid h =>
    rw [comeback, h]
    exact settleAt_lt_iff htwo hle
  | midpoint mid h hlt hmid =>
    rw [comeback, h]
    exact ⟨fun _ => hlt.trans hmid, fun _ => hmid⟩
  | back h =>
    rw [comeback, h]
    exact settleAt_lt_iff htwo hle

theorem not_lowers (hshed : ¬g.Bursts s ∨ g.DiskBound s) (hdrop : ¬g.Drops s) : ¬g.Lowers s := by
  rintro (⟨hdisk, hburst⟩ | h)
  · exact hshed.elim (fun h => h hburst) fun h => hdisk h
  · exact hdrop h

theorem Observed.k_lt_iff (h : g.Observed s r) (hg : g.Ramping) (hrate : s.rateLimited = none) :
    r.1.k < g.k ↔ g.Lowers s := by
  cases h with
  | limited retryAfter h => exact absurd (hrate.symm.trans h) (by simp)
  | diskBound _ hdisk =>
    exact iff_of_false (lt_irrefl _) (not_lowers (.inr hdisk) fun h => h.1.disk hdisk)
  | shed _ hdisk hburst =>
    exact iff_of_true (Nat.sub_lt hg.pos Nat.one_pos) (.inl ⟨hdisk, hburst⟩)
  | cooled hu hphase =>
    refine iff_of_false (lt_irrefl _) (not_lowers (.inl hu.errors) fun h => ?_)
    simp [h.2.2.1] at hphase
  | measuring w hu hphase hopen =>
    exact iff_of_false (lt_irrefl _) (not_lowers (.inl hu.errors) fun h => hopen h.2.1)
  | first hu hclose hphase hr =>
    refine iff_of_false (Nat.not_lt.2 hr.le) (not_lowers (.inl hu.errors) ?_)
    rintro ⟨-, -, hramp, prevK, prevRate, hbase, -⟩
    simp [hramp, hbase] at hphase
  | paid prevK prevRate hu hclose hphase hbase hgain hr =>
    refine iff_of_false (Nat.not_lt.2 hr.le) (not_lowers (.inl hu.errors) ?_)
    rintro ⟨-, -, -, prevK', prevRate', hbase', hgain', -⟩
    obtain ⟨rfl, rfl⟩ : prevK' = prevK ∧ prevRate' = prevRate := by simpa [hbase'] using hbase
    exact absurd hgain (not_le.2 hgain')
  | unpaid prevK prevRate hu hclose hphase hbase hgain hr =>
    obtain ⟨htwo, hle⟩ := hg.two hphase
    obtain ⟨-, -, hceiling, hmid, -⟩ := noteLoss_eq (gainOver prevRate (g.rateAt s))
      (perConnRatio prevK prevRate g.k (g.rateAt s)) ((g.noted s).closed s)
    rw [hr.k_lt_iff htwo (hceiling.symm ▸ hle), comeback, hmid]
    constructor
    · intro h
      exact .inr ⟨hu, hclose, hphase, prevK, prevRate, hbase, not_le.1 hgain, h⟩
    · rintro (⟨-, hburst⟩ | ⟨-, -, -, prevK', prevRate', hbase', -, h⟩)
      · exact absurd hburst hu.errors
      · obtain ⟨rfl, rfl⟩ : prevK' = prevK ∧ prevRate' = prevRate := by simpa [hbase'] using hbase
        exact h
  | settled hu hphase =>
    refine iff_of_false (lt_irrefl _) (not_lowers (.inl hu.errors) fun h => ?_)
    simp [h.2.2.1] at hphase
  | reprobed hu h =>
    have hlt : g.k < min (g.k + 2) (g.growthLimit s) := lt_min (by omega) h.room
    refine iff_of_false (Nat.not_lt.2 hlt.le) (not_lowers (.inl hu.errors) fun hd => ?_)
    simpa [hd.2.2.1] using h.settled

/-- **When an observation without a rate limit lowers the target.** -/
theorem observe_lt_iff (hg : g.Ramping) (hrate : s.rateLimited = none) :
    (g.observe s).1.k < g.k ↔ g.Lowers s := (observed s g).k_lt_iff hg hrate

theorem Lowers.ne_spawnTo (h : g.Lowers s) : (g.observe s).2 ≠ .spawnTo n := by
  intro hn
  have hu : g.Undisturbed s := by
    rcases observe_spawnTo_iff.1 hn with ⟨hu, -⟩ | ⟨hd, -⟩
    · exact hu
    · exact hd.undisturbed
  rcases h with ⟨-, hburst⟩ | ⟨-, -, hphase, prevK, prevRate, hbase, hgain, -⟩
  · exact hu.errors hburst
  · rcases observe_spawnTo_iff.1 hn with ⟨-, hr, -⟩ | ⟨hd, -⟩
    · exact absurd (hphase.symm.trans hr.settled) (by decide)
    · rcases hd.adopts with hbaseline | ⟨-, hpaid⟩
      · exact absurd (hphase.symm.trans hbaseline) (by decide)
      · exact absurd (hpaid prevK prevRate hbase) (not_le.2 hgain)

/-! ### Growth on an adverse sample -/

/-- A settled governor re-probes although the writer is blocked. -/
def ReprobesPressed (s : Sample) (g : Governor) : Prop :=
  g.Undisturbed s ∧ s.diskBackpressure = true ∧ g.Reprobes s

/-- The only connection there is has met errors when the first window closes, and there is room. -/
def StartsOnErrors (s : Sample) (g : Governor) : Prop :=
  g.Undisturbed s ∧ 2 ≤ s.errorsSinceLast ∧ g.k = 1 ∧ s.diskBackpressure = false ∧
    s.probeToken = true ∧ g.phase = .baseline ∧ g.Closes s ∧ 1 < g.growthLimit s

/-- Only a lone connection meets two errors without being shed. -/
theorem alone_of_errors (hg : g.Ramping) (hu : g.Undisturbed s) (h : 2 ≤ s.errorsSinceLast) :
    g.k = 1 := by
  have hle : ¬1 < g.k := fun hk => hu.errors ⟨h, hk⟩
  have := hg.pos
  omega

/-- **When the governor grows on an adverse sample.**  In every reachable state and for every
sample: what asks for more connections is a sample with the token and without a rate limit,
backpressure or two errors, unless a settled governor re-probes under backpressure or the only
connection has met errors in its first window. -/
theorem grows_calm_iff {cfg : GovernorConfig} {k0 : ℕ} {now : Nanos} {g : Governor}
    (h : governorMachine.Reaches (new cfg k0 now) g) (s : Sample) :
    (∀ n, (g.observe s).2 = .spawnTo n → s.probeToken = true ∧ s.rateLimited = none ∧
      s.diskBackpressure = false ∧ s.errorsSinceLast < 2) ↔
    ¬g.ReprobesPressed s ∧ ¬g.StartsOnErrors s := by
  have hg := ramping_of_reaches h
  constructor
  · intro hcalm
    constructor
    · rintro ⟨hu, hdisk, hr⟩
      have hspawn := observe_spawnTo_iff.2 (.inl ⟨hu, hr, rfl⟩)
      exact absurd (hdisk.symm.trans (hcalm _ hspawn).2.2.1) (by decide)
    · rintro ⟨hu, herr, hk, hdisk, htoken, hphase, hclose, hroom⟩
      have hlt : g.k < min (g.k * 2) (g.growthLimit s) := by
        rw [hk]
        exact lt_min (by decide) hroom
      have hspawn := observe_spawnTo_iff.2
        (.inr ⟨⟨hu, hclose, .inl hphase, htoken, hdisk, hlt⟩, rfl⟩)
      exact absurd (hcalm _ hspawn).2.2.2 (Nat.not_lt.2 herr)
  · rintro ⟨hp, he⟩ n hn
    rcases observe_spawnTo_iff.1 hn with ⟨hu, hr, -⟩ | ⟨hd, -⟩
    · have hdisk : s.diskBackpressure = false := Bool.eq_false_iff.2 fun h => hp ⟨hu, h, hr⟩
      exact ⟨hr.token, hu.rate, hdisk, by rw [hr.errors]; decide⟩
    · have hu := hd.undisturbed
      refine ⟨hd.token, hu.rate, hd.disk, Nat.not_le.1 fun herr => ?_⟩
      have hk : g.k = 1 := alone_of_errors hg hu herr
      rcases hd.adopts with hphase | ⟨hphase, -⟩
      · exact he ⟨hu, herr, hk, hd.disk, hd.token, hphase, hd.closes,
          hk.symm.trans_lt (hd.room.trans_le (min_le_right _ _))⟩
      · have := (hg.two hphase).1
        omega

/-- The first window of four connections ends in growth. -/
theorem grows_calm_four : governorMachine.Reaches (new {} 4 0) firstWindow ∧
    (firstWindow.observe firstClosed).2 = .spawnTo 8 ∧ firstClosed.probeToken = true ∧
      firstClosed.rateLimited = none ∧ firstClosed.diskBackpressure = false ∧
        firstClosed.errorsSinceLast < 2 :=
  ⟨reaches_firstWindow, firstWindow_grows, (grows_calm_iff reaches_firstWindow _).2
    ⟨fun h => absurd h.2.1 (by decide), fun h => absurd h.2.1 (by decide)⟩ 8 firstWindow_grows⟩

/-- Two errors shed the fourth connection; 31 seconds later it is back, while the writer is
blocked. -/
theorem grows_pressed : ∃ g, governorMachine.Reaches (new {} 4 0) g ∧
    (g.observe (fourConns (secs 31) 0 0 true)).2 = .spawnTo 4 ∧
      (fourConns (secs 31) 0 0 true).diskBackpressure = true :=
  ⟨_, .single trivial (e := fourConns 1 0 2 false) rfl, by decide, rfl⟩

/-! ### A level that brings nothing -/

/-- **When a level that brings nothing is given up.**  In every reachable state that measures a
level against a baseline, and for every sample that closes the window at no more than the rate of
the baseline: the governor asks for no more and falls below the level, exactly when the gain counts
as below the threshold and the baseline is from a lower level. -/
theorem unpaid_level_iff {cfg : GovernorConfig} {k0 : ℕ} {now : Nanos} {g : Governor}
    (h : governorMachine.Reaches (new cfg k0 now) g) {s : Sample} (hu : g.Undisturbed s)
    (hclose : g.Closes s) (hphase : g.phase = .ramp) {prevK : ℕ} {prevRate : ℚ}
    (hbase : g.baseline = some (prevK, prevRate)) (hrate : g.rateAt s ≤ prevRate) :
    ((∀ n, (g.observe s).2 ≠ .spawnTo n) ∧ (g.observe s).1.k < g.k) ↔
      gainOver prevRate (g.rateAt s) < g.cfg.gainThreshold ∧ prevK < g.k := by
  have hback : g.comeback prevK prevRate (g.rateAt s) = prevK := by
    unfold comeback
    cases g.midCandidate with
    | none => rfl
    | some mid => exact if_neg (not_lt.2 hrate)
  have hlowers : g.Lowers s ↔
      gainOver prevRate (g.rateAt s) < g.cfg.gainThreshold ∧ prevK < g.k := by
    constructor
    · rintro (⟨-, hburst⟩ | ⟨-, -, -, prevK', prevRate', hbase', hgain, hlt⟩)
      · exact absurd hburst hu.errors
      · obtain ⟨rfl, rfl⟩ : prevK' = prevK ∧ prevRate' = prevRate := by simpa [hbase'] using hbase
        exact ⟨hgain, hback ▸ hlt⟩
    · rintro ⟨hgain, hlt⟩
      exact .inr ⟨hu, hclose, hphase, prevK, prevRate, hbase, hgain, hback.symm ▸ hlt⟩
  rw [observe_lt_iff (ramping_of_reaches h) hu.rate, hlowers]
  exact and_iff_right_of_imp fun h n => (hlowers.2 h).ne_spawnTo

/-- Four connections that move so many bytes in 1.2 seconds, and then stall: eight are tried. -/
def stalledAfter (bytes : ℕ) : Governor :=
  ((((new {} 4 0).observe (fourConns (millis 400) 0 0 false)).1.observe
    (fourConns (millis 1600) bytes 0 false)).1.observe (fourConns (millis 2000) bytes 0 false)).1

theorem reaches_stalledAfter (bytes : ℕ) :
    governorMachine.Reaches (new {} 4 0) (stalledAfter bytes) := by
  have h : governorMachine.exec (new {} 4 0) [fourConns (millis 400) 0 0 false,
    fourConns (millis 1600) bytes 0 false, fourConns (millis 2000) bytes 0 false] =
      some (stalledAfter bytes) := rfl
  exact Machine.reaches_of_exec h

/-- A gigabyte in the first window and nothing in the second: eight connections are given up. -/
theorem unpaid_level_given_up :
    (∀ n, ((stalledAfter (10 ^ 9)).observe (fourConns (millis 3200) (10 ^ 9) 0 false)).2 ≠
      .spawnTo n) ∧
    ((stalledAfter (10 ^ 9)).observe (fourConns (millis 3200) (10 ^ 9) 0 false)).1.k <
      (stalledAfter (10 ^ 9)).k := by
  have hbase : (stalledAfter (10 ^ 9)).baseline = some (4, 5 / 6) := by decide +kernel
  refine (unpaid_level_iff (reaches_stalledAfter (10 ^ 9)) ⟨?_, ?_, ?_⟩ ⟨?_, ?_⟩ ?_ hbase ?_).2
    ⟨?_, ?_⟩
  · decide +kernel
  · decide +kernel
  · decide +kernel
  · unfold WarmingUp; decide +kernel
  · unfold TooShort; decide +kernel
  all_goals decide +kernel

/-- Nothing in either window: eight connections are no gain over four, and sixteen are tried. -/
theorem unpaid_level_kept :
    governorMachine.Reaches (new {} 4 0) (stalledAfter 0) ∧ (stalledAfter 0).phase = .ramp ∧
      (stalledAfter 0).Undisturbed (fourConns (millis 3200) 0 0 false) ∧
      (stalledAfter 0).Closes (fourConns (millis 3200) 0 0 false) ∧
      (stalledAfter 0).baseline = some (4, 0) ∧
      (stalledAfter 0).rateAt (fourConns (millis 3200) 0 0 false) = 0 ∧
      ((stalledAfter 0).observe (fourConns (millis 3200) 0 0 false)).2 = .spawnTo 16 := by
  refine ⟨reaches_stalledAfter 0, ?_, ⟨?_, ?_, ?_⟩, ⟨?_, ?_⟩, ?_, ?_, ?_⟩
  · decide +kernel
  · decide +kernel
  · decide +kernel
  · decide +kernel
  · unfold WarmingUp; decide +kernel
  · unfold TooShort; decide +kernel
  all_goals decide +kernel

end Governor

end SwiftLoad
