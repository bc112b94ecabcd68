import SwiftLoad.Task.Drive

/-!
# Every claim has one holder

The link between the driver and the planner.  Every step of the driver is answered by steps of the
planner's machine, so what holds of every run of the planner holds of every download.

* `Drive.Owned` : the claims of the plan are the claims the workers hold, one holder each.
* `Drive.Follows` : a state of the driver and a state of the planner's machine belong together.
* `Drive.refines_plan` : **the driver refines the planner.**
* `Drive.linked` : the planner accounts for the bytes of a download.
-/

namespace SwiftLoad

open Ranges

namespace Drive

variable {cfg : DriveCfg} {s s' : Drive}

/-- The claim that worker `i` holds. -/
def slotOf (s : Drive) (i : ℕ) : Option ℕ := s.workers[i]?.bind (·.phase.slot?)

/-- The chunk of worker `i` that is with the writer while the cursor has not moved. -/
def inFlightOf (s : Drive) (i : ℕ) : Option (ℕ × ℕ) := s.workers[i]?.bind (·.phase.inFlight?)

/-- The claims of the plan are the claims the workers hold, one holder each. -/
structure Owned (s : Drive) : Prop where
  valid : s.shared.plan.Valid
  holds : ∀ i id, s.slotOf i = some id → ∃ c ∈ s.shared.plan.slots, c.id = id
  unique : ∀ i j id, s.slotOf i = some id → s.slotOf j = some id → i = j
  held : ∀ c ∈ s.shared.plan.slots, ∃ i, s.slotOf i = some c.id

/-- The planner's side of a state of the driver. -/
structure Follows (s : Drive) (r : PlanRun) : Prop where
  plan : r.plan = s.shared.plan
  handed : r.handed = s.shared.sent.map fun m => (m.1, m.2.length)
  pending : ∀ id n, r.pending id = some n ↔ ∃ i, s.inFlightOf i = some (id, n)

theorem slotOf_eq_of_inFlightOf {i : ℕ} {q : ℕ × ℕ} (h : s.inFlightOf i = some q) :
    s.slotOf i = some q.1 := by
  obtain ⟨w, hw, hq⟩ := Option.bind_eq_some_iff.1 h
  refine Option.bind_eq_some_iff.2 ⟨w, hw, ?_⟩
  cases hp : w.phase <;> rw [hp] at hq <;> simp only [WorkerPhase.inFlight?, Option.some.injEq,
    reduceCtorEq] at hq
  rw [← hq]; rfl

theorem Owned.congr (h : s.Owned) (hplan : s'.shared.plan = s.shared.plan)
    (hslot : ∀ i, s'.slotOf i = s.slotOf i) : s'.Owned where
  valid := hplan ▸ h.valid
  holds := fun i id hi => hplan ▸ h.holds i id (hslot i ▸ hi)
  unique := fun i j id hi hj => h.unique i j id (hslot i ▸ hi) (hslot j ▸ hj)
  held := fun c hc => by
    obtain ⟨i, hi⟩ := h.held c (hplan ▸ hc)
    exact ⟨i, (hslot i).trans hi⟩

theorem Follows.congr {r : PlanRun} (h : s.Follows r) (hshared : s'.shared.plan = s.shared.plan)
    (hsent : s'.shared.sent = s.shared.sent) (hin : ∀ i, s'.inFlightOf i = s.inFlightOf i) :
    s'.Follows r where
  plan := h.plan.trans hshared.symm
  handed := hsent ▸ h.handed
  pending := fun id n => (h.pending id n).trans (exists_congr fun i => by rw [hin i])

/-! ### Workers in the list -/

section Workers

variable {i n : ℕ} {w w' : Worker}

theorem slotOf_set (hw : s.workers[i]? = some w) (h : s'.workers = s.workers.set i w') (j : ℕ) :
    s'.slotOf j = if j = i then w'.phase.slot? else s.slotOf j := by
  obtain ⟨hi, -⟩ := List.getElem?_eq_some_iff.1 hw
  unfold slotOf
  rw [h, List.getElem?_set]
  split_ifs with h₁ h₂ h₂
  · rfl
  · exact absurd h₁.symm h₂
  · exact absurd h₂.symm h₁
  · rfl

theorem inFlightOf_set (hw : s.workers[i]? = some w) (h : s'.workers = s.workers.set i w') (j : ℕ) :
    s'.inFlightOf j = if j = i then w'.phase.inFlight? else s.inFlightOf j := by
  obtain ⟨hi, -⟩ := List.getElem?_eq_some_iff.1 hw
  unfold inFlightOf
  rw [h, List.getElem?_set]
  split_ifs with h₁ h₂ h₂
  · rfl
  · exact absurd h₁.symm h₂
  · exact absurd h₂.symm h₁
  · rfl

theorem slotOf_of_getElem? (hw : s.workers[i]? = some w) : s.slotOf i = w.phase.slot? := by
  simp [slotOf, hw]

theorem inFlightOf_of_getElem? (hw : s.workers[i]? = some w) :
    s.inFlightOf i = w.phase.inFlight? := by
  simp [inFlightOf, hw]

theorem slotOf_append (h : s'.workers = s.workers ++ List.replicate n Worker.new) (j : ℕ) :
    s'.slotOf j = s.slotOf j := by
  unfold slotOf
  rw [h, List.getElem?_append]
  split_ifs with hj
  · rfl
  · rw [List.getElem?_eq_none (Nat.not_lt.1 hj), List.getElem?_replicate]
    split_ifs <;> rfl

theorem inFlightOf_append (h : s'.workers = s.workers ++ List.replicate n Worker.new) (j : ℕ) :
    s'.inFlightOf j = s.inFlightOf j := by
  unfold inFlightOf
  rw [h, List.getElem?_append]
  split_ifs with hj
  · rfl
  · rw [List.getElem?_eq_none (Nat.not_lt.1 hj), List.getElem?_replicate]
    split_ifs <;> rfl

end Workers

/-! ### One step -/

/-- The driver itself leaves the plan, the messages and what the workers hold alone. -/
theorem step_keeps {e : DriveEvent} (he : ∀ i w, e ≠ .worker i w) (h : s.step cfg e = some s') :
    s'.shared = s.shared ∧ (∀ j, s'.slotOf j = s.slotOf j) ∧
      ∀ j, s'.inFlightOf j = s.inFlightOf j := by
  cases stepped h with
  | moves i w => exact absurd rfl (he i w)
  | joins i w exit hpc hw hphase =>
    obtain ⟨hshared, hworkers, -⟩ := onJoin_spec i w exit s
    refine ⟨hshared, ?_, ?_⟩
    · intro j
      rw [slotOf_set hw hworkers]
      split_ifs with hj
      · rw [hj, slotOf_of_getElem? hw, hphase]; rfl
      · rfl
    · intro j
      rw [inFlightOf_set hw hworkers]
      split_ifs with hj
      · rw [hj, inFlightOf_of_getElem? hw, hphase]; rfl
      · rfl
  | spawns n =>
    exact ⟨spawnWorkers_shared, fun j => slotOf_append spawnWorkers_workers j,
      fun j => inFlightOf_append spawnWorkers_workers j⟩
  | _ => exact ⟨rfl, fun _ => rfl, fun _ => rfl⟩

/-- The driver itself moves no worker: it adds fresh ones and takes notice of exits. -/
theorem step_workers {e : DriveEvent} (he : ∀ i w, e ≠ .worker i w) (h : s.step cfg e = some s')
    {j : ℕ} {w : Worker} (hw : s'.workers[j]? = some w) :
    s.workers[j]? = some w ∨ w.phase = .starting ∨ w.phase = .joined := by
  cases stepped h with
  | moves i w => exact absurd rfl (he i w)
  | joins i w₀ exit =>
    rw [(onJoin_spec i w₀ exit s).2.1, List.getElem?_set] at hw
    split_ifs at hw
    · obtain rfl := Option.some.inj hw
      exact Or.inr (Or.inr rfl)
    · exact Or.inl hw
  | spawns n =>
    simp only [spawnWorkers_workers, List.getElem?_append] at hw
    split_ifs at hw
    · exact Or.inl hw
    · rw [List.eq_of_mem_replicate (List.mem_of_getElem? hw)]
      exact Or.inr (Or.inl rfl)
  | _ => exact Or.inl hw

section Worker

variable {i : ℕ} {w w' : Worker} {sh : Shared} {r : PlanRun}

/-- A worker's step leaves the cursors of the claims of the others alone. -/
theorem Owned.cursor_kept (h : s.Owned) (hw : s.workers[i]? = some w)
    (he : Worker.Effect s.shared w sh w') {j : ℕ} (hj : j ≠ i) {c : ClaimSlot}
    (hc : c ∈ s.shared.plan.slots) (hcj : s.slotOf j = some c.id) :
    ∃ d ∈ sh.plan.slots, d.id = c.id ∧ d.cursor = c.cursor ∧ d.stop ≤ c.stop := by
  have hother : ∀ id, w.phase.slot? = some id → c.id ≠ id := fun id hid heq =>
    hj (h.unique j i id (heq ▸ hcj) ((slotOf_of_getElem? hw).trans hid))
  cases he with
  | still hplan => exact ⟨c, hplan ▸ hc, rfl, rfl, le_rfl⟩
  | claim c' hreq =>
    have hreq' : s.shared.plan.request.1 = sh.plan := by rw [hreq]
    exact hreq' ▸ h.valid.request_slots hc
  | hand c' bytes hc' hplan => exact ⟨c, hplan ▸ hc, rfl, rfl, le_rfl⟩
  | advance id n hplan hsent hslot =>
    refine ⟨c, ?_, rfl, rfl, le_rfl⟩
    rw [hplan]
    exact Plan.mem_modifySlot.2 ⟨c, hc, (if_neg (hother id hslot)).symm⟩
  | release id hplan hsent hslot =>
    refine ⟨c, ?_, rfl, rfl, le_rfl⟩
    rw [hplan]
    exact h.valid.mem_release.2 ⟨hc, hother id hslot⟩

theorem Owned.worker (h : s.Owned) (hw : s.workers[i]? = some w)
    (he : Worker.Effect s.shared w sh w')
    (hs' : s' = { s with shared := sh, workers := s.workers.set i w' }) : s'.Owned := by
  have hslot : ∀ j, s'.slotOf j = if j = i then w'.phase.slot? else s.slotOf j :=
    slotOf_set hw (by rw [hs'])
  have hi : s.slotOf i = w.phase.slot? := slotOf_of_getElem? hw
  have hshared : s'.shared = sh := by rw [hs']
  -- a step that leaves what the worker holds alone leaves what everybody holds alone
  have hsame : w'.phase.slot? = w.phase.slot? → ∀ j, s'.slotOf j = s.slotOf j := by
    intro heq j
    rw [hslot]
    split_ifs with hj
    · rw [hj, hi, heq]
    · rfl
  cases he with
  | still hplan hsent heq hin hin' =>
    exact h.congr (by rw [hshared, hplan]) (hsame heq)
  | hand c bytes hc hplan hsent hle hsl hsl' hin hin' =>
    exact h.congr (by rw [hshared, hplan]) (hsame (hsl'.trans hsl.symm))
  | claim c hreq hsent hsl hsl' hin hin' =>
    have hplan : s.shared.plan.request.1 = s'.shared.plan := by rw [hreq, hshared]
    obtain ⟨hid, hmem, hold⟩ := Plan.request_claim hreq
    have hother : ∀ j id, j ≠ i → s'.slotOf j = some id → s.slotOf j = some id ∧ id ≠ c.id := by
      intro j id hj hjd
      rw [hslot, if_neg hj] at hjd
      obtain ⟨d, hd, rfl⟩ := h.holds j id hjd
      exact ⟨hjd, hid ▸ (h.valid.fresh d hd).ne⟩
    refine ⟨hplan ▸ h.valid.request_spec.1, ?_, ?_, ?_⟩
    · intro j id hj
      by_cases hji : j = i
      · rw [hslot, if_pos hji, hsl'] at hj
        obtain rfl := Option.some.inj hj
        exact ⟨c, hshared ▸ hmem, rfl⟩
      · obtain ⟨d, hd, rfl⟩ := h.holds j id (hother j id hji hj).1
        obtain ⟨d', hd', hdid, -⟩ := h.valid.request_slots hd
        exact ⟨d', hplan ▸ hd', hdid⟩
    · intro j k id hj hk
      by_cases hji : j = i <;> by_cases hki : k = i
      · rw [hji, hki]
      · rw [hslot, if_pos hji, hsl'] at hj
        exact absurd (Option.some.inj hj).symm (hother k id hki hk).2
      · rw [hslot, if_pos hki, hsl'] at hk
        exact absurd (Option.some.inj hk).symm (hother j id hji hj).2
      · exact h.unique j k id (hother j id hji hj).1 (hother k id hki hk).1
    · intro d hd
      rcases hold d (hshared ▸ hd) with hdid | ⟨d₀, hd₀, hdid⟩
      · exact ⟨i, by rw [hslot, if_pos rfl, hsl', hdid]⟩
      · obtain ⟨j, hj⟩ := h.held d₀ hd₀
        have hji : j ≠ i := fun hji => by rw [hji, hi, hsl] at hj; simp at hj
        exact ⟨j, by rw [hslot, if_neg hji, hj, hdid]⟩
  | advance id n hplan hsent hsl hsl' hin hin' =>
    obtain ⟨c, hc, rfl⟩ := h.holds i id (hi.trans hsl)
    have hplan' : s'.shared.plan = s.shared.plan.modifySlot c.id (ClaimSlot.advance n) := by
      rw [hshared, hplan]
    have hslot' := hsame (hsl'.trans hsl.symm)
    have hids : ∀ d d₀ : ClaimSlot, d = (if d₀.id = c.id then d₀.advance n else d₀) →
        d.id = d₀.id := by
      intro d d₀ hd
      rw [hd]
      split_ifs <;> rfl
    refine ⟨hplan' ▸ (h.valid.advance_spec hc n).1, ?_,
      fun j k id hj hk => h.unique j k id (hslot' j ▸ hj) (hslot' k ▸ hk), ?_⟩
    · intro j id hj
      obtain ⟨d₀, hd₀, rfl⟩ := h.holds j id (hslot' j ▸ hj)
      exact ⟨_, hplan' ▸ Plan.mem_modifySlot.2 ⟨d₀, hd₀, rfl⟩, hids _ d₀ rfl⟩
    · intro d hd
      obtain ⟨d₀, hd₀, hdd⟩ := Plan.mem_modifySlot.1 (hplan' ▸ hd)
      obtain ⟨j, hj⟩ := h.held d₀ hd₀
      exact ⟨j, by rw [hslot', hj, hids d d₀ hdd]⟩
  | release id hplan hsent hsl hsl' hin hin' =>
    have hplan' : s'.shared.plan = s.shared.plan.release id := by rw [hshared, hplan]
    have hother : ∀ j id', s'.slotOf j = some id' → j ≠ i ∧ s.slotOf j = some id' := by
      intro j id' hj
      by_cases hji : j = i
      · rw [hslot, if_pos hji, hsl'] at hj
        exact absurd hj (by simp)
      · rw [hslot, if_neg hji] at hj
        exact ⟨hji, hj⟩
    refine ⟨hplan' ▸ (h.valid.release_spec id).1, ?_,
      fun j k id' hj hk => h.unique j k id' (hother j id' hj).2 (hother k id' hk).2, ?_⟩
    · intro j id' hj
      obtain ⟨hji, hj⟩ := hother j id' hj
      obtain ⟨d, hd, rfl⟩ := h.holds j id' hj
      refine ⟨d, hplan' ▸ h.valid.mem_release.2 ⟨hd, fun hdid => hji ?_⟩, rfl⟩
      exact h.unique j i id (hdid ▸ hj) (hi.trans hsl)
    · intro d hd
      obtain ⟨hd, hdid⟩ := h.valid.mem_release.1 (hplan' ▸ hd)
      obtain ⟨j, hj⟩ := h.held d hd
      have hji : j ≠ i := fun hji => by
        rw [hji, hi, hsl] at hj
        exact hdid (Option.some.inj hj).symm
      exact ⟨j, by rw [hslot, if_neg hji, hj]⟩

/-- A worker's step is answered by at most one step of the planner's machine. -/
theorem Follows.worker (hf : s.Follows r) (h : s.Owned) (hw : s.workers[i]? = some w)
    (he : Worker.Effect s.shared w sh w')
    (hs' : s' = { s with shared := sh, workers := s.workers.set i w' }) :
    ∃ r', planMachine.Reaches r r' ∧ s'.Follows r' := by
  have hin : ∀ j, s'.inFlightOf j = if j = i then w'.phase.inFlight? else s.inFlightOf j :=
    inFlightOf_set hw (by rw [hs'])
  have hi : s.slotOf i = w.phase.slot? := slotOf_of_getElem? hw
  have hini : s.inFlightOf i = w.phase.inFlight? := inFlightOf_of_getElem? hw
  have hshared : s'.shared = sh := by rw [hs']
  have hnone : w.phase.inFlight? = none → w'.phase.inFlight? = none →
      ∀ j, s'.inFlightOf j = s.inFlightOf j := by
    intro h₁ h₂ j
    rw [hin]
    split_ifs with hj
    · rw [hj, hini, h₁, h₂]
    · rfl
  -- the chunks that this worker does not touch
  have hrest : ∀ id n, w.phase.inFlight? ≠ some (id, n) → w'.phase.inFlight? ≠ some (id, n) →
      ((∃ j, s.inFlightOf j = some (id, n)) ↔ ∃ j, s'.inFlightOf j = some (id, n)) := by
    intro id n h₁ h₂
    refine exists_congr ?_
    intro j
    rw [hin]
    split_ifs with hj
    · rw [hj, hini]
      exact iff_of_false h₁ h₂
    · rfl
  -- the only chunk of a claim that can be in flight is its holder's
  have hpend : ∀ id, w.phase.slot? = some id → w.phase.inFlight? = none → r.pending id = none := by
    intro id hsl hno
    by_contra hne
    obtain ⟨n, hn⟩ := Option.ne_none_iff_exists'.1 hne
    obtain ⟨j, hj⟩ := (hf.pending id n).1 hn
    have hji := h.unique j i id (slotOf_eq_of_inFlightOf hj) (hi.trans hsl)
    rw [hji, hini, hno] at hj
    simp at hj
  cases he with
  | still hplan hsent hsl h₁ h₂ =>
    exact ⟨r, .refl, hf.congr (by rw [hshared, hplan]) (by rw [hshared, hsent]) (hnone h₁ h₂)⟩
  | claim c hreq hsent hsl hsl' h₁ h₂ =>
    have hst : planMachine.step r .request = some { r with plan := r.plan.request.1 } := rfl
    refine ⟨{ r with plan := r.plan.request.1 }, .single trivial hst, ?_, ?_, ?_⟩
    · rw [hf.plan, hreq, hshared]
    · rw [hshared, hsent]; exact hf.handed
    · intro id n
      exact (hf.pending id n).trans (hrest id n (by simp [h₁]) (by simp [h₂]))
  | hand c bytes hc hplan hsent hle hsl hsl' h₁ h₂ =>
    have hst : planMachine.step r (.hand c.id bytes.length) = some { r with
        pending := Function.update r.pending c.id (some bytes.length)
        handed := r.handed ++ [(c.cursor, bytes.length)] } := by
      simp only [planMachine, PlanRun.step, hf.plan, hc, hpend c.id hsl h₁, if_pos hle]
    refine ⟨_, .single trivial hst, ?_, ?_, ?_⟩
    · rw [hshared, hplan]; exact hf.plan
    · simp only [hshared, hsent, hf.handed, List.map_append, List.map_cons, List.map_nil]
    · intro id n
      show Function.update r.pending c.id (some bytes.length) id = some n ↔ _
      by_cases hid : id = c.id
      · subst hid
        rw [Function.update_self]
        constructor
        · rintro hn
          obtain rfl := Option.some.inj hn
          exact ⟨i, by rw [hin, if_pos rfl, h₂]⟩
        · rintro ⟨j, hj⟩
          by_cases hji : j = i
          · rw [hin, if_pos hji, h₂] at hj
            exact congrArg (Option.map Prod.snd) hj
          · rw [hin, if_neg hji] at hj
            exact absurd (h.unique j i _ (slotOf_eq_of_inFlightOf hj) (hi.trans hsl)) hji
      · rw [Function.update_of_ne hid, hf.pending]
        exact hrest id n (by simp [h₁]) (by simp [h₂, Ne.symm hid])
  | advance id n hplan hsent hsl hsl' h₁ h₂ =>
    have hn : r.pending id = some n := (hf.pending id n).2 ⟨i, hini.trans h₁⟩
    have hst : planMachine.step r (.advance id) = some { r with
        plan := r.plan.modifySlot id (ClaimSlot.advance n)
        pending := Function.update r.pending id none } := by
      simp only [planMachine, PlanRun.step, hn, Option.map_some]
    refine ⟨_, .single trivial hst, ?_, ?_, ?_⟩
    · show r.plan.modifySlot id _ = _
      rw [hshared, hplan, hf.plan]
    · rw [hshared, hsent]; exact hf.handed
    · intro id' m
      show Function.update r.pending id none id' = some m ↔ _
      by_cases hid : id' = id
      · subst hid
        rw [Function.update_self]
        refine ⟨fun hm => by simp at hm, ?_⟩
        rintro ⟨j, hj⟩
        by_cases hji : j = i
        · rw [hin, if_pos hji, h₂] at hj
          exact absurd hj (by simp)
        · rw [hin, if_neg hji] at hj
          exact absurd (h.unique j i _ (slotOf_eq_of_inFlightOf hj) (hi.trans hsl)) hji
      · rw [Function.update_of_ne hid, hf.pending]
        exact hrest id' m (by simp [h₁, Ne.symm hid]) (by simp [h₂])
  | release id hplan hsent hsl hsl' h₁ h₂ =>
    obtain ⟨c, hc, rfl⟩ := h.holds i id (hi.trans hsl)
    have hst : planMachine.step r (.release c.id) =
        some { r with plan := r.plan.release c.id } := by
      simp only [planMachine, PlanRun.step, hf.plan, h.valid.slot?_eq hc, hpend c.id hsl h₁]
    refine ⟨_, .single trivial hst, ?_, ?_, ?_⟩
    · show r.plan.release c.id = _
      rw [hshared, hplan, hf.plan]
    · rw [hshared, hsent]; exact hf.handed
    · intro id n
      exact (hf.pending id n).trans (hrest id n (by simp [h₁]) (by simp [h₂]))

end Worker

theorem Owned.step (h : s.Owned) {e : DriveEvent} (hs : s.step cfg e = some s') : s'.Owned := by
  by_cases he : ∃ i w, e = .worker i w
  · obtain ⟨i, we, rfl⟩ := he
    obtain ⟨w, sh, w', -, hw, hst, hs'⟩ := step_worker hs
    exact h.worker hw (Worker.effect_of_step hst) hs'
  · push Not at he
    obtain ⟨hshared, hslot, -⟩ := step_keeps he hs
    exact h.congr (by rw [hshared]) hslot

/-- Every step of the driver is answered by the planner's machine. -/
theorem Follows.step {r : PlanRun} (hf : s.Follows r) (h : s.Owned) {e : DriveEvent}
    (hs : s.step cfg e = some s') : ∃ r', planMachine.Reaches r r' ∧ s'.Follows r' := by
  by_cases he : ∃ i w, e = .worker i w
  · obtain ⟨i, we, rfl⟩ := he
    obtain ⟨w, sh, w', -, hw, hst, hs'⟩ := step_worker hs
    exact hf.worker h hw (Worker.effect_of_step hst) hs'
  · push Not at he
    obtain ⟨hshared, -, hin⟩ := step_keeps he hs
    exact ⟨r, .refl, hf.congr (by rw [hshared]) (by rw [hshared]) hin⟩

/-! ### Whole runs -/

/-- The link between a download and the planner: the claims have one holder each, and the planner
accounts for the bytes that were to be fetched. -/
structure Linked (work : Set ℕ) (s : Drive) : Prop where
  owned : s.Owned
  accounted : ∃ r, s.Follows r ∧ Accounted work r

theorem slotOf_start (plan : Plan) (govCfg : GovernorConfig) (k0 : ℕ) (now : Nanos) (i : ℕ) :
    (start plan govCfg k0 now).slotOf i = none := by
  unfold start
  rw [slotOf_append spawnWorkers_workers]
  rfl

theorem inFlightOf_start (plan : Plan) (govCfg : GovernorConfig) (k0 : ℕ) (now : Nanos) (i : ℕ) :
    (start plan govCfg k0 now).inFlightOf i = none := by
  unfold start
  rw [inFlightOf_append spawnWorkers_workers]
  rfl

theorem Owned.start (total : Option ℕ) {completed : RangeSet} (hc : completed.Ordered)
    (seed : ℕ) (govCfg : GovernorConfig) (k0 : ℕ) (now : Nanos) :
    (Drive.start ((Plan.new total completed).seed seed) govCfg k0 now).Owned where
  valid := by
    rw [Drive.start, spawnWorkers_shared]
    exact (Plan.valid_new total hc).seed seed
  holds := by
    intro i id hi
    rw [slotOf_start] at hi
    simp at hi
  unique := by
    intro i j id hi
    rw [slotOf_start] at hi
    simp at hi
  held := by
    intro c hc
    rw [Drive.start, spawnWorkers_shared, Plan.seed_slots] at hc
    simp [Plan.new] at hc

theorem Follows.start (total : Option ℕ) (completed : RangeSet) (seed : ℕ)
    (govCfg : GovernorConfig) (k0 : ℕ) (now : Nanos) :
    (Drive.start ((Plan.new total completed).seed seed) govCfg k0 now).Follows
      { PlanRun.init total completed with plan := (Plan.new total completed).seed seed } where
  plan := by rw [Drive.start, spawnWorkers_shared]
  handed := by rw [Drive.start, spawnWorkers_shared]; rfl
  pending := by
    intro id n
    simp [inFlightOf_start, PlanRun.init]

section Runs

variable {total : Option ℕ} {completed : RangeSet} {seed k0 : ℕ} {govCfg : GovernorConfig}
  {now : Nanos}

/-- **The driver refines the planner.**  Whatever the driver and its workers do, their plan and
their messages are those of a run of the planner's machine. -/
theorem refines_plan (hc : completed.Ordered) (h : (driveMachine cfg).Reaches
      (start ((Plan.new total completed).seed seed) govCfg k0 now) s) :
    ∃ r, planMachine.Reaches (PlanRun.init total completed) r ∧ s.Owned ∧ s.Follows r := by
  have hseed : planMachine.step (PlanRun.init total completed) (.seed seed) =
      some { PlanRun.init total completed with plan := (Plan.new total completed).seed seed } := rfl
  obtain ⟨r, hr, howned, hf⟩ := h.simulate (N := planMachine) (Q := fun _ _ => True)
    (R := fun s r => s.Owned ∧ s.Follows r)
    ⟨.start total hc seed govCfg k0 now, .start total completed seed govCfg k0 now⟩ (by
      rintro s e s' r ⟨howned, hf⟩ - hst
      obtain ⟨r', hr, hf'⟩ := hf.step howned hst
      exact ⟨r', hr, howned.step hst, hf'⟩)
  exact ⟨r, (Machine.ReachesUnder.single trivial hseed).trans hr, howned, hf⟩

/-- The claims have one holder each, and the planner accounts for every byte. -/
theorem linked (hc : completed.Ordered) (h : (driveMachine cfg).Reaches
      (start ((Plan.new total completed).seed seed) govCfg k0 now) s) :
    s.Linked (cover (Plan.new total completed).ranges) := by
  obtain ⟨r, hr, howned, hf⟩ := refines_plan hc h
  exact ⟨howned, r, hf, (Accounted.init total hc).run hr⟩

end Runs

theorem Linked.sent_subset {work : Set ℕ} (h : s.Linked work) {m : ℕ × List UInt8}
    (hm : m ∈ s.shared.sent) : span (m.1, m.2.length) ⊆ work := by
  obtain ⟨r, hf, hacc⟩ := h.accounted
  intro b hb
  have hmem : (m.1, m.2.length) ∈ r.handed := hf.handed ▸ List.mem_map_of_mem hm
  exact hacc.work_eq ▸ Or.inl (mem_cover_of_mem hmem hb.1 hb.2)

theorem Linked.outstanding_le {work : Set ℕ} (h : s.Linked work) (hfin : work.Finite) :
    s.shared.plan.outstanding ≤ work.ncard := by
  obtain ⟨r, hf, hacc⟩ := h.accounted
  rw [h.owned.valid.outstanding_eq, ← hf.plan]
  exact Set.ncard_le_ncard (hacc.work_eq ▸ Set.subset_union_right) hfin

end Drive

end SwiftLoad
