import Mathlib.Algebra.BigOperators.Fin
import Mathlib.Algebra.Order.BigOperators.Group.Finset
import SwiftLoad.Machine.Ranked
import SwiftLoad.Task.Metering

/-!
# How many requests a download can send

The accounts of the single workers, added up over the machine.  A worker that was not spawned yet
counts as a new one, so that spawning moves nothing.

* `Drive.Metered` : the invariant: claims are paid with bytes and workers, requests with claims.
* `Drive.Metered.costs` : what a step costs.
* `Drive.loopRank` : falls whenever a worker passes the head of one of its loops.
* `requests_bounded` : **at most `(t + W) * (A + 1)` requests, and every loop ends.**
-/

namespace SwiftLoad

open Ranges

/-! ### Sums in which one term moves -/

theorem sum_range_le_of_one {n i a b : ℕ} {f g : ℕ → ℕ} (hi : i < n)
    (hle : ∀ j, j ≠ i → g j ≤ f j) (h : g i + a ≤ f i + b) :
    ∑ j ∈ Finset.range n, g j + a ≤ ∑ j ∈ Finset.range n, f j + b := by
  have hmem : i ∈ Finset.range n := Finset.mem_range.2 hi
  rw [← Finset.add_sum_erase _ g hmem, ← Finset.add_sum_erase _ f hmem]
  have hrest : ∑ j ∈ (Finset.range n).erase i, g j ≤ ∑ j ∈ (Finset.range n).erase i, f j :=
    Finset.sum_le_sum fun j hj => hle j (Finset.ne_of_mem_erase hj)
  omega

/-! ### The whole machine -/

/-- A worker passes the head of one of its loops: it asks for a claim, or it starts an attempt at
the one it holds. -/
def DriveEvent.loops : DriveEvent → Prop
  | .worker _ .request | .worker _ .connect => True
  | _ => False

namespace Drive

variable {cfg : DriveCfg} {s s' : Drive} {N : ℕ}

/-- Worker `j`.  One that was not spawned yet is like a new one. -/
def workerAt (s : Drive) (j : ℕ) : Worker := s.workers.getD j Worker.new

/-- The token of worker `j`. -/
def tokenAt (s : Drive) (j : ℕ) : Bool := s.retireTokens.getD j false

/-- The credit of the first `N` workers. -/
def credits (N : ℕ) (s : Drive) : ℕ :=
  ∑ j ∈ Finset.range N, (s.workerAt j).phase.credit s.shared.plan (s.tokenAt j)

/-- The requests that the first `N` workers may still send for their claims. -/
def lefts (maxRetries N : ℕ) (s : Drive) : ℕ :=
  ∑ j ∈ Finset.range N, (s.workerAt j).phase.left maxRetries

/-- The requests that the first `N` workers have sent. -/
def requestsOf (N : ℕ) (s : Drive) : ℕ := ∑ j ∈ Finset.range N, (s.workerAt j).requests

/-- Falls whenever a worker asks for a claim or passes the head of the loop over its claim. -/
def loopRank (maxRetries N : ℕ) (s : Drive) : ℕ :=
  (maxRetries + 2) * (s.shared.plan.outstanding + s.credits N) + s.lefts maxRetries N

theorem workerAt_of_getElem? {i : ℕ} {w : Worker} (h : s.workers[i]? = some w) :
    s.workerAt i = w := by
  rw [workerAt, List.getD_eq_getElem?_getD, h, Option.getD_some]

theorem slotOf_eq (s : Drive) (j : ℕ) : s.slotOf j = (s.workerAt j).phase.slot? := by
  rw [slotOf, workerAt, List.getD_eq_getElem?_getD]
  cases s.workers[j]? with
  | none => rfl
  | some w => rfl

theorem workerAt_set {i : ℕ} {w w' : Worker} (hw : s.workers[i]? = some w)
    (h : s'.workers = s.workers.set i w') (j : ℕ) :
    s'.workerAt j = if j = i then w' else s.workerAt j := by
  obtain ⟨hi, -⟩ := List.getElem?_eq_some_iff.1 hw
  rw [workerAt, workerAt, List.getD_eq_getElem?_getD, List.getD_eq_getElem?_getD, h,
    List.getElem?_set]
  split_ifs with h₁ h₂ h₂
  · rfl
  · exact absurd h₁.symm h₂
  · exact absurd h₂.symm h₁
  · rfl

theorem workerAt_append {n : ℕ} (h : s'.workers = s.workers ++ List.replicate n Worker.new)
    (j : ℕ) : s'.workerAt j = s.workerAt j := by
  rw [workerAt, workerAt, List.getD_eq_getElem?_getD, List.getD_eq_getElem?_getD, h,
    List.getElem?_append]
  split_ifs with hj
  · rfl
  · rw [List.getElem?_eq_none (Nat.not_lt.1 hj), List.getElem?_replicate]
    split_ifs <;> rfl

theorem tokenAt_retire (target : ℕ) {j : ℕ} (h : s.tokenAt j = true) :
    (s.retire target).tokenAt j = true := by
  rw [tokenAt, List.getD_eq_getElem?_getD] at h ⊢
  cases hj : s.retireTokens[j]? with
  | none =>
    rw [hj] at h
    cases h
  | some b =>
    rw [hj] at h
    obtain rfl : b = true := h
    have hkept := retireLoop_of_true (s.conns - max target 1) s.retireTokens hj
    rw [retire, retireDownTo, hkept, Option.getD_some]

theorem tokenAt_spawn (n : ℕ) {j : ℕ} (h : s.tokenAt j = true) :
    (spawnWorkers n s).tokenAt j = true := by
  rw [tokenAt, List.getD_eq_getElem?_getD] at h ⊢
  cases hj : s.retireTokens[j]? with
  | none =>
    rw [hj] at h
    cases h
  | some b =>
    rw [hj] at h
    obtain ⟨hlt, -⟩ := List.getElem?_eq_some_iff.1 hj
    rw [spawnWorkers_retireTokens, List.getElem?_append_left hlt, hj]
    exact h

/-- A worker after an event of the driver: as it was, or gone. -/
def Passed (w w' : Worker) : Prop :=
  w' = w ∨ (∃ exit, w.phase = .exited exit) ∧ w' = { w with phase := .joined }

/-- What the driver itself does to the workers: it cancels tokens, adds fresh workers and takes
notice of exits. -/
theorem step_passes {e : DriveEvent} (he : ∀ i w, e ≠ .worker i w) (h : s.step cfg e = some s') :
    (∀ j, Passed (s.workerAt j) (s'.workerAt j)) ∧
      (∀ j, s.tokenAt j = true → s'.tokenAt j = true) ∧
      s.workers.length ≤ s'.workers.length := by
  cases stepped h with
  | moves i w => exact absurd rfl (he i w)
  | joins i w exit hpc hw hphase =>
    obtain ⟨-, hworkers, htokens, -⟩ := onJoin_spec i w exit s
    refine ⟨fun j => ?_, fun j hj => ?_, by rw [hworkers, List.length_set]⟩
    · rw [workerAt_set hw hworkers]
      split_ifs with hj
      · rw [hj, workerAt_of_getElem? hw]
        exact Or.inr ⟨⟨exit, hphase⟩, rfl⟩
      · exact Or.inl rfl
    · rw [tokenAt, htokens]
      exact hj
  | spawns n =>
    refine ⟨fun j => Or.inl (workerAt_append spawnWorkers_workers j),
      fun j hj => tokenAt_spawn _ hj, ?_⟩
    show _ ≤ (spawnWorkers _ s).workers.length
    rw [spawnWorkers_workers, List.length_append]
    exact Nat.le_add_right _ _
  | retires d target => exact ⟨fun _ => Or.inl rfl, fun _ hj => tokenAt_retire target hj, le_rfl⟩
  | thins target => exact ⟨fun _ => Or.inl rfl, fun _ hj => tokenAt_retire target hj, le_rfl⟩
  | _ => exact ⟨fun _ => Or.inl rfl, fun _ hj => hj, le_rfl⟩

theorem Owned.finished_kept (h : s.Owned) {i : ℕ} {w w' : Worker} {sh : Shared}
    (hw : s.workers[i]? = some w) (he : Worker.Effect s.shared w sh w') {j : ℕ} (hj : j ≠ i)
    {id : ℕ} (hid : (s.workerAt j).phase.slot? = some id) :
    sh.plan.finished id = s.shared.plan.finished id := by
  have hslot : s.slotOf j = some id := (slotOf_eq s j).trans hid
  obtain ⟨c, hc, rfl⟩ := h.holds j id hslot
  have hother : ∀ id, w.phase.slot? = some id → c.id ≠ id := fun id hid heq =>
    hj (h.unique j i id (heq ▸ hslot) ((slotOf_of_getElem? hw).trans hid))
  cases he with
  | still hplan => rw [hplan]
  | claim c' hreq =>
    have hreq' : s.shared.plan.request.1 = sh.plan := by rw [hreq]
    rw [← hreq', h.valid.finished_request hc]
  | hand c' bytes hc' hplan => rw [hplan]
  | advance id n hplan hsent hsl =>
    obtain ⟨d, hd, rfl⟩ := h.holds i id ((slotOf_of_getElem? hw).trans hsl)
    have hmem : c ∈ (s.shared.plan.modifySlot d.id (ClaimSlot.advance n)).slots :=
      Plan.mem_modifySlot.2 ⟨c, hc, (if_neg (hother d.id hsl)).symm⟩
    rw [hplan, (h.valid.advance_spec hd n).1.finished_eq hmem, h.valid.finished_eq hc]
  | release id hplan hsent hsl =>
    have hmem : c ∈ (s.shared.plan.release id).slots :=
      h.valid.mem_release.2 ⟨hc, hother id hsl⟩
    rw [hplan, (h.valid.release_spec id).1.finished_eq hmem, h.valid.finished_eq hc]

/-- The invariant: claims are paid with the bytes and the workers of the download, and requests
are paid with claims. -/
structure Metered (maxRetries t : ℕ) (s : Drive) : Prop where
  owned : s.Owned
  free : Positive s.shared.plan.free
  attempts : ∀ j, (s.workerAt j).phase.attempts ≤ maxRetries
  earned : ∀ j, (s.workerAt j).phase.Earned s.shared.plan (s.tokenAt j)
  claims : ∀ N, s.workers.length ≤ N →
    s.shared.plan.nextId + (s.shared.plan.outstanding + s.credits N) ≤ t + N
  requests : ∀ N, s.workers.length ≤ N →
    s.requestsOf N + s.lefts maxRetries N ≤ (maxRetries + 1) * s.shared.plan.nextId

/-- What a step costs, for any number of workers that it does not exceed. -/
structure Costs (maxRetries : ℕ) (s : Drive) (e : DriveEvent) (s' : Drive) (N : ℕ) : Prop where
  mono : s.shared.plan.nextId ≤ s'.shared.plan.nextId
  claims : s'.shared.plan.nextId + (s'.shared.plan.outstanding + s'.credits N) ≤
    s.shared.plan.nextId + (s.shared.plan.outstanding + s.credits N)
  sent : s.requestsOf N ≤ s'.requestsOf N
  requests :
    s'.requestsOf N + s'.lefts maxRetries N + (maxRetries + 1) * s.shared.plan.nextId ≤
      s.requestsOf N + s.lefts maxRetries N + (maxRetries + 1) * s'.shared.plan.nextId
  head : e.loops → s'.shared.plan.outstanding + s'.credits N <
      s.shared.plan.outstanding + s.credits N ∨ s'.lefts maxRetries N < s.lefts maxRetries N

/-- No step raises the rank, and a worker at the head of a loop lowers it. -/
theorem Costs.rank_le {A : ℕ} {e : DriveEvent} (h : Costs A s e s' N) :
    s'.loopRank A N ≤ s.loopRank A N ∧ (e.loops → s'.loopRank A N < s.loopRank A N) := by
  obtain ⟨d, hd⟩ := Nat.exists_eq_add_of_le h.mono
  obtain ⟨f, hf⟩ : ∃ f, s.shared.plan.outstanding + s.credits N =
      s'.shared.plan.outstanding + s'.credits N + d + f :=
    ⟨_, (Nat.add_sub_cancel' (by have := h.claims; omega)).symm⟩
  have hreq := h.requests
  have hsent := h.sent
  have hhead := h.head
  rw [hf] at hhead
  rw [hd, Nat.mul_add] at hreq
  simp only [loopRank, hf, Nat.mul_add]
  have h₁ : (A + 2) * d = (A + 1) * d + d := Nat.succ_mul (A + 1) d
  have h₂ : f ≤ (A + 2) * f := Nat.le_mul_of_pos_left f (by omega)
  refine ⟨by omega, fun hloops => ?_⟩
  have := hhead hloops
  omega

theorem Metered.costs_worker {t : ℕ} (h : s.Metered cfg.ctx.maxRetries t)
    (hu : cfg.ctx.useRange = true) {i : ℕ} {we : WorkerEvent}
    (hs : s.step cfg (.worker i we) = some s') (hN : s.workers.length ≤ N) :
    Costs cfg.ctx.maxRetries s (.worker i we) s' N ∧
      (∀ j, (s'.workerAt j).phase.attempts ≤ cfg.ctx.maxRetries) ∧
      ∀ j, (s'.workerAt j).phase.Earned s'.shared.plan (s'.tokenAt j) := by
  obtain ⟨w, sh, w', -, hw, hst, hs'⟩ := step_worker hs
  have hshared : s'.shared = sh := by rw [hs']
  have htoken : ∀ j, s'.tokenAt j = s.tokenAt j := fun j => by rw [hs']; rfl
  have hat : ∀ j, s'.workerAt j = if j = i then w' else s.workerAt j :=
    workerAt_set hw (by rw [hs'])
  have hwi : s.workerAt i = w := workerAt_of_getElem? hw
  have hi : i < N := (List.getElem?_eq_some_iff.1 hw).1.trans_le hN
  have hkept : ∀ j, j ≠ i → ∀ id, (s.workerAt j).phase.slot? = some id →
      sh.plan.finished id = s.shared.plan.finished id := fun j hj id hid =>
    h.owned.finished_kept hw (Worker.effect_of_step hst) hj hid
  have hcharged := Worker.charged_of_step (hwi ▸ h.attempts i) hst
  have hcredited := Worker.credited_of_step hu h.owned.valid h.free (hwi ▸ h.earned i) hst
  -- the terms of the others stay, that of worker `i` follows its step
  have hcredit : ∀ j, j ≠ i → (s'.workerAt j).phase.credit s'.shared.plan (s'.tokenAt j) ≤
      (s.workerAt j).phase.credit s.shared.plan (s.tokenAt j) := by
    intro j hj
    rw [hat, if_neg hj, hshared, htoken, WorkerPhase.credit_congr (hkept j hj)]
  have hsum : ∀ a b, w'.phase.credit sh.plan (s.tokenAt i) + a ≤
      w.phase.credit s.shared.plan (s.tokenAt i) + b → s'.credits N + a ≤ s.credits N + b := by
    intro a b hab
    refine sum_range_le_of_one hi hcredit ?_
    rw [hat, if_pos rfl, hshared, htoken, hwi]
    exact hab
  refine ⟨⟨hshared ▸ hcredited.mono, ?_, ?_, ?_, ?_⟩, ?_, ?_⟩
  · rw [hshared]
    have hpaid : w'.phase.credit sh.plan (s.tokenAt i) + (sh.plan.nextId + sh.plan.outstanding) ≤
        w.phase.credit s.shared.plan (s.tokenAt i) +
          (s.shared.plan.nextId + s.shared.plan.outstanding) := by
      have := hcredited.paid
      simp only [tokenAt]
      omega
    have := hsum _ _ hpaid
    omega
  · refine Finset.sum_le_sum fun j _ => ?_
    rw [hat]
    split_ifs with hj
    · rw [hj, hwi]
      exact hcharged.mono
    · exact le_rfl
  · rw [hshared, requestsOf, requestsOf, lefts, lefts, ← Finset.sum_add_distrib,
      ← Finset.sum_add_distrib]
    refine sum_range_le_of_one hi (fun j hj => by rw [hat, if_neg hj]) ?_
    rw [hat, if_pos rfl, hwi]
    exact hcharged.paid
  · intro hloops
    cases we with
    | request =>
      left
      rw [hshared]
      have hlt := hsum (sh.plan.outstanding + 1) s.shared.plan.outstanding (by
        have := hcredited.head rfl
        simp only [tokenAt]
        omega)
      omega
    | connect =>
      right
      have hlt := hcharged.head rfl
      refine sum_range_le_of_one (a := 1) (b := 0) hi (fun j hj => by rw [hat, if_neg hj]) ?_
      rw [hat, if_pos rfl, hwi]
      exact hlt
    | _ => exact hloops.elim
  · intro j
    rw [hat]
    split_ifs
    · exact hcharged.attempts
    · exact h.attempts j
  · intro j
    rw [hat, hshared, htoken]
    split_ifs with hj
    · rw [hj]
      exact hcredited.earned
    · exact (h.earned j).congr id (hkept j hj)

/-- The driver itself sends no request and asks for no claim. -/
theorem Metered.costs_driver {t : ℕ} (h : s.Metered cfg.ctx.maxRetries t) {e : DriveEvent}
    (he : ∀ i w, e ≠ .worker i w) (hs : s.step cfg e = some s') :
    Costs cfg.ctx.maxRetries s e s' N ∧
      (∀ j, (s'.workerAt j).phase.attempts ≤ cfg.ctx.maxRetries) ∧
      ∀ j, (s'.workerAt j).phase.Earned s'.shared.plan (s'.tokenAt j) := by
  obtain ⟨hshared, -⟩ := step_keeps he hs
  obtain ⟨hpass, htoken, -⟩ := step_passes he hs
  have hcredit : s'.credits N ≤ s.credits N := by
    refine Finset.sum_le_sum fun j _ => ?_
    rw [hshared]
    rcases hpass j with hj | ⟨-, hj⟩ <;> rw [hj]
    · exact WorkerPhase.credit_le (htoken j)
    · exact Nat.zero_le _
  have hreq : s'.requestsOf N = s.requestsOf N := by
    refine Finset.sum_congr rfl fun j _ => ?_
    rcases hpass j with hj | ⟨-, hj⟩ <;> rw [hj]
  have hleft : s'.lefts cfg.ctx.maxRetries N ≤ s.lefts cfg.ctx.maxRetries N := by
    refine Finset.sum_le_sum fun j _ => ?_
    rcases hpass j with hj | ⟨-, hj⟩ <;> rw [hj]
    exact Nat.zero_le _
  refine ⟨⟨hshared ▸ le_rfl, ?_, hreq.ge, ?_, ?_⟩, ?_, ?_⟩
  · rw [hshared]
    omega
  · rw [hshared, hreq]
    omega
  · intro hloops
    cases e with
    | worker i w => exact absurd rfl (he i w)
    | _ => exact hloops.elim
  · intro j
    rcases hpass j with hj | ⟨-, hj⟩ <;> rw [hj]
    · exact h.attempts j
    · exact Nat.zero_le _
  · intro j
    rw [hshared]
    rcases hpass j with hj | ⟨-, hj⟩ <;> rw [hj]
    · exact (h.earned j).congr (htoken j) fun _ _ => rfl
    · trivial

theorem Metered.costs {t : ℕ} (h : s.Metered cfg.ctx.maxRetries t) (hu : cfg.ctx.useRange = true)
    {e : DriveEvent} (hs : s.step cfg e = some s') (hN : s.workers.length ≤ N) :
    Costs cfg.ctx.maxRetries s e s' N ∧
      (∀ j, (s'.workerAt j).phase.attempts ≤ cfg.ctx.maxRetries) ∧
      ∀ j, (s'.workerAt j).phase.Earned s'.shared.plan (s'.tokenAt j) := by
  by_cases he : ∃ i w, e = .worker i w
  · obtain ⟨i, we, rfl⟩ := he
    exact h.costs_worker hu hs hN
  · push Not at he
    exact h.costs_driver he hs

theorem length_le_of_step {e : DriveEvent} (hs : s.step cfg e = some s') :
    s.workers.length ≤ s'.workers.length := by
  by_cases he : ∃ i w, e = .worker i w
  · obtain ⟨i, we, rfl⟩ := he
    obtain ⟨w, sh, w', -, -, -, rfl⟩ := step_worker hs
    exact List.length_set.ge
  · push Not at he
    exact (step_passes he hs).2.2

theorem positive_of_step (h : s.Owned) (hfree : Positive s.shared.plan.free) {e : DriveEvent}
    (hs : s.step cfg e = some s') : Positive s'.shared.plan.free := by
  by_cases he : ∃ i w, e = .worker i w
  · obtain ⟨i, we, rfl⟩ := he
    obtain ⟨w, sh, w', -, -, hst, rfl⟩ := step_worker hs
    cases Worker.effect_of_step hst with
    | still hplan => rw [hplan]; exact hfree
    | claim c hreq =>
      have hreq' : s.shared.plan.request.1 = sh.plan := by rw [hreq]
      exact hreq' ▸ Plan.positive_request hfree
    | hand c bytes hc hplan => rw [hplan]; exact hfree
    | advance id n hplan => rw [hplan]; exact hfree
    | release id hplan => rw [hplan]; exact h.valid.positive_release hfree id
  · push Not at he
    rw [(step_keeps he hs).1]
    exact hfree

theorem Metered.step {t : ℕ} (h : s.Metered cfg.ctx.maxRetries t) (hu : cfg.ctx.useRange = true)
    {e : DriveEvent} (hs : s.step cfg e = some s') : s'.Metered cfg.ctx.maxRetries t := by
  have hlen := length_le_of_step hs
  have hcosts := h.costs hu hs le_rfl
  refine ⟨h.owned.step hs, positive_of_step h.owned h.free hs, hcosts.2.1, hcosts.2.2, ?_, ?_⟩
  · intro N hN
    exact (h.costs hu hs (hlen.trans hN)).1.claims.trans (h.claims N (hlen.trans hN))
  · intro N hN
    have h₁ := (h.costs hu hs (hlen.trans hN)).1.requests
    have h₂ := h.requests N (hlen.trans hN)
    omega

theorem metered_start (t A : ℕ) {completed : RangeSet} (hc : completed.Ordered) (seed : ℕ)
    (govCfg : GovernorConfig) (k0 : ℕ) (now : Nanos) :
    (start ((Plan.new (some t) completed).seed seed) govCfg k0 now).Metered A t := by
  have hat : ∀ j, (start ((Plan.new (some t) completed).seed seed) govCfg k0 now).workerAt j =
      Worker.new := fun j => workerAt_append spawnWorkers_workers j
  have hplan : (start ((Plan.new (some t) completed).seed seed) govCfg k0 now).shared.plan =
      (Plan.new (some t) completed).seed seed := by rw [start, spawnWorkers_shared]
  have hnext : ((Plan.new (some t) completed).seed seed).nextId = 0 := by
    unfold Plan.seed
    split_ifs <;> rfl
  refine ⟨.start (some t) hc seed govCfg k0 now, ?_, ?_, ?_, ?_, ?_⟩
  · rw [hplan]
    exact Plan.positive_seed (RangeSet.gapsIn_spec hc 0 t).2.1 seed
  · intro j
    rw [hat]
    exact Nat.zero_le _
  · intro j
    rw [hat]
    trivial
  · intro N _
    have hcredits : (start ((Plan.new (some t) completed).seed seed) govCfg k0 now).credits N =
        N := by
      simp only [credits, hat]
      exact (Finset.sum_const 1).trans (by simp)
    have hrefl : (driveMachine ⟨⟨.supported, none, 0⟩, false, 0⟩).Reaches
        (start ((Plan.new (some t) completed).seed seed) govCfg k0 now)
        (start ((Plan.new (some t) completed).seed seed) govCfg k0 now) := .refl
    have hwork := (linked hc hrefl).outstanding_le
      (by rw [Plan.cover_ranges_new t hc]; exact (Set.finite_Iio t).sdiff)
    have hle : (cover (Plan.new (some t) completed).ranges).ncard ≤ t := by
      rw [Plan.cover_ranges_new t hc]
      exact (Set.ncard_le_ncard Set.sdiff_subset (Set.finite_Iio t)).trans_eq (by simp)
    rw [hcredits, hplan, hnext] at *
    omega
  · intro N _
    simp [requestsOf, lefts, hat, Worker.new, WorkerPhase.left]

theorem sum_requests (s : Drive) :
    (s.workers.map Worker.requests).sum = s.requestsOf s.workers.length := by
  rw [requestsOf, Finset.sum_range, ← Fin.sum_univ_fun_getElem]
  refine Finset.sum_congr rfl fun j _ => ?_
  rw [workerAt_of_getElem? (List.getElem?_eq_getElem j.isLt)]

/-- Claims are bounded by the bytes and the workers, requests by the claims. -/
theorem Metered.requests_le {A t : ℕ} (h : s.Metered A t) :
    (s.workers.map Worker.requests).sum ≤ (t + s.workers.length) * (A + 1) := by
  have hclaims : s.shared.plan.nextId ≤ t + s.workers.length := by
    have := h.claims _ le_rfl
    omega
  have hpaid := h.requests _ le_rfl
  rw [sum_requests]
  calc s.requestsOf s.workers.length
      ≤ (A + 1) * s.shared.plan.nextId := by omega
    _ ≤ (A + 1) * (t + s.workers.length) := Nat.mul_le_mul_left _ hclaims
    _ = (t + s.workers.length) * (A + 1) := Nat.mul_comm _ _

end Drive

/-- **Adversarial termination.**  However the workers interleave, steal, fail and are answered, a
ranged download of `t` bytes with `W` workers sends at most `(t + W) * (A + 1)` requests, and in
a run that goes on for ever with a bounded number of workers every loop of a worker ends. -/
theorem requests_bounded {cfg : DriveCfg} (hranges : cfg.ctx.rangeSupport = .supported) (t : ℕ)
    {completed : RangeSet} (hc : completed.Ordered) (seed : ℕ) (govCfg : GovernorConfig) (k0 : ℕ)
    (now : Nanos) :
    (∀ s, (driveMachine cfg).Reaches
        (.start ((Plan.new (some t) completed).seed seed) govCfg k0 now) s →
      (s.workers.map Worker.requests).sum ≤
        (t + s.workers.length) * (cfg.ctx.maxRetries + 1)) ∧
    ∀ (run : ℕ → Drive) (event : ℕ → DriveEvent) (W : ℕ),
      run 0 = .start ((Plan.new (some t) completed).seed seed) govCfg k0 now →
      (∀ n, (driveMachine cfg).step (run n) (event n) = some (run (n + 1))) →
      (∀ n, (run n).workers.length ≤ W) → ∃ n₀, ∀ n ≥ n₀, ¬(event n).loops := by
  have hu : cfg.ctx.useRange = true := decide_eq_true hranges
  have hstart := Drive.metered_start t cfg.ctx.maxRetries hc seed govCfg k0 now
  constructor
  · intro s hs
    exact (hs.invariant hstart fun _ _ _ ih _ hst => ih.step hu hst).requests_le
  · intro run event W hzero hstep hW
    have hmetered : ∀ n, (run n).Metered cfg.ctx.maxRetries t := by
      intro n
      induction n with
      | zero => exact hzero ▸ hstart
      | succ n ih => exact ih.step hu (hstep n)
    have hcosts := fun n => ((hmetered n).costs hu (hstep n) (hW n)).1.rank_le
    exact @Ranked.eventually (fun n => (run n).loopRank cfg.ctx.maxRetries W)
      (fun n => (event n).loops) (fun n => (hcosts n).1) fun n => (hcosts n).2

/-- Four bytes, and a body that breaks off after two: the claim takes two requests. -/
theorem requests_bounded_retry :
    ∃ s, (driveMachine ⟨⟨.supported, some 4, 5⟩, false, 0⟩).exec
        (.start ((Plan.new (some 4) .new).seed 1) {} 1 0)
        (soloRun [.build true, .check, .request, .connect,
          .respond (some { status := 206, contentRange := some rangeHead, body := [0, 1] }),
          .proceed, .poll (.chunk 2 false), .advance, .proceed, .poll .ended, .wake, .connect]) =
            some s ∧
      s.workers.map Worker.requests = [2] ∧
      (s.workers.map Worker.requests).sum ≤ (4 + s.workers.length) * (5 + 1) := by
  have hrun : ((driveMachine ⟨⟨.supported, some 4, 5⟩, false, 0⟩).exec
        (.start ((Plan.new (some 4) .new).seed 1) {} 1 0)
        (soloRun [.build true, .check, .request, .connect,
          .respond (some { status := 206, contentRange := some rangeHead, body := [0, 1] }),
          .proceed, .poll (.chunk 2 false), .advance, .proceed, .poll .ended, .wake,
          .connect])).map (fun s => s.workers.map Worker.requests) = some [2] := by
    decide +kernel
  obtain ⟨s, hs, hsent⟩ := Option.map_eq_some_iff.1 hrun
  have hranges : (⟨⟨.supported, some 4, 5⟩, false, 0⟩ : DriveCfg).ctx.rangeSupport = .supported :=
    rfl
  have hbound := requests_bounded hranges 4 RangeSet.ordered_new 1 {} 1 0
  exact ⟨s, hs, hsent, hbound.1 s (Machine.reaches_of_exec hs)⟩

end SwiftLoad
