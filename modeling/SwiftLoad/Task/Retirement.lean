import SwiftLoad.Task.Placement

/-!
# Standing workers down

The driver stands workers down by cancelling their tokens; a worker notices when it is between two
claims, and exits.  Until then it still counts as live, so a second decision can cancel the tokens
of the workers that the first one wanted to keep.

* `retireLoop_count` : how many tokens one decision cancels.
* `Drive.undisturbed` : no request fails and nothing is cancelled.
* `Drive.sparing` : the condition on a decision that it leaves a token while ranges are unclaimed.
* `Drive.Staffed` : the invariant: unclaimed ranges have a worker to come back for them.
* `no_stranded_work` : **a run whose decisions all meet the condition leaves no work behind.**
* `stranded_work` : two ticks in a row stand down both workers and strand the third gap.
-/

namespace SwiftLoad

open Ranges

/-! ### Cancelling tokens -/

section RetireLoop

variable (n : ℕ) (tokens : List Bool)

theorem retireLoop_length : (retireLoop n tokens).length = tokens.length := by
  induction n generalizing tokens with
  | zero => rfl
  | succ n ih =>
    unfold retireLoop
    split
    · rw [ih, List.length_set]
    · rfl

theorem retireLoop_of_true {i : ℕ} (h : tokens[i]? = some true) :
    (retireLoop n tokens)[i]? = some true := by
  induction n generalizing tokens with
  | zero => exact h
  | succ n ih =>
    unfold retireLoop
    split
    · refine ih _ ?_
      rw [List.getElem?_set]
      split_ifs with h₁ h₂
      · rfl
      · obtain ⟨hlt, -⟩ := List.getElem?_eq_some_iff.1 h
        omega
      · exact h
    · exact h

/-- The loop cancels `n` tokens, or all that are left. -/
theorem retireLoop_count : (retireLoop n tokens).count false = tokens.count false - n := by
  induction n generalizing tokens with
  | zero => rfl
  | succ n ih =>
    unfold retireLoop
    split
    · rename_i i hi
      obtain ⟨hlt, hfalse, -⟩ := List.findIdx?_eq_some_iff_getElem.1 hi
      have hfalse : tokens[i] = false := by simpa using hfalse
      rw [ih, List.count_set hlt, hfalse]
      simp only [beq_self_eq_true, if_true, Bool.true_beq, Bool.false_eq_true, if_false]
      omega
    · rename_i hnone
      have : false ∉ tokens := fun hmem => by
        simpa using List.findIdx?_eq_none_iff.1 hnone false hmem
      rw [List.count_eq_zero.2 this, Nat.zero_sub]

end RetireLoop

/-! ### Conditions on a run -/

/-- An event that is no failure: the client is built, the response passes the checks, the body
brings the whole claim, and the writer takes every chunk. -/
def WorkerEvent.succeeds (ctx : WorkerCtx) (p : Plan) (w : Worker) : WorkerEvent → Bool
  | .build ok => ok
  | .respond r =>
    match w.phase with
    | .connecting _ _ start _ => (ctx.verify start r).isOk
    | _ => true
  | .poll .timeout | .poll .broken => false
  | .poll .ended =>
    match w.phase with
    | .reading id _ _ => (p.slot? id).all ClaimSlot.isDone
    | _ => true
  | .poll (.chunk _ writerGone) => !writerGone
  | _ => true

namespace Drive

/-- No request fails and nothing is cancelled. -/
def undisturbed (cfg : DriveCfg) (s : Drive) : DriveEvent → Bool
  | .worker i e => s.workers[i]?.all (e.succeeds cfg.ctx s.shared.plan)
  | .cancel => false
  | _ => true

/-- Standing down to `target` leaves a token, unless everything is claimed. -/
def spares (s : Drive) (target : ℕ) : Bool :=
  s.shared.plan.free.isEmpty || decide (s.conns - max target 1 < s.retireTokens.count false)

/-- Whenever the driver stands workers down, it leaves a token or everything is claimed. -/
def sparing (s : Drive) : DriveEvent → Bool
  | .act =>
    match s.pc with
    | .acting d => d.standDown.all s.spares
    | _ => true
  | .endgame => (s.gov.endgameTarget s.shared.plan.outstanding).all s.spares
  | _ => true

end Drive

/-! ### One worker -/

/-- How a worker stands when nothing has gone wrong: it gives back only claims that are finished,
and it leaves when everything is claimed or its token is `retired`. -/
def WorkerPhase.Steady (p : Plan) (retired : Bool) : WorkerPhase → Prop
  | handing id _ take _ satisfied =>
    satisfied = true → ∃ c ∈ p.slots, c.id = id ∧ c.stop ≤ c.cursor + take
  | waiting _ _ => False
  | releasing _ (some _) => False
  | releasing id none => ∃ c ∈ p.slots, c.id = id ∧ c.stop ≤ c.cursor
  | exited .exhausted => p.free = []
  | exited .retired => retired = true
  | exited _ => False
  | joined => p.free = [] ∨ retired = true
  | _ => True

section Worker

variable {ctx : WorkerCtx} {retire : Bool} {sh sh' : Shared} {w w' : Worker} {p p' : Plan}
  {phase : WorkerPhase}

theorem Plan.request_free (h : p.free = []) : p.request.1.free = [] := by
  rcases p.request_cases with ⟨idx, start, len, hidx, -, -⟩ | ⟨-, -, hr⟩ |
    ⟨-, victim, -, splitAt, -, -, -, -, hr⟩
  · rw [h] at hidx
    simp at hidx
  · rw [hr]; exact h
  · rw [hr]; exact h

theorem Plan.request_free_of_exhausted {q : Plan} (h : p.request = (q, .exhausted)) :
    q.free = [] := by
  rcases p.request_cases with ⟨idx, start, len, -, -, hr⟩ | ⟨hfree, -, hr⟩ |
    ⟨-, victim, -, splitAt, -, -, -, -, hr⟩ <;> rw [hr] at h
  · exact absurd (Prod.mk.inj h).2 (by simp)
  · rw [← (Prod.mk.inj h).1]; exact hfree
  · exact absurd (Prod.mk.inj h).2 (by simp)

theorem Plan.Valid.release_free (h : p.Valid) {c : ClaimSlot} (hc : c ∈ p.slots)
    (hdone : c.stop ≤ c.cursor) : (p.release c.id).free = p.free := by
  obtain ⟨l₁, l₂, hs, h₁, h₂⟩ := h.split hc
  rw [Plan.release_eq hs h₁ h₂, ClaimSlot.remaining, Nat.sub_eq_zero_of_le hdone,
    Plan.returnRange_zero]

/-- What the others do to the plan and to the tokens leaves a worker steady. -/
theorem WorkerPhase.Steady.congr {retired retired' : Bool} (h : phase.Steady p retired)
    (hfree : p.free = [] → p'.free = []) (hretired : retired = true → retired' = true)
    (hkeep : ∀ c ∈ p.slots, phase.slot? = some c.id →
      ∃ c' ∈ p'.slots, c'.id = c.id ∧ c'.cursor = c.cursor ∧ c'.stop ≤ c.stop) :
    phase.Steady p' retired' := by
  cases phase with
  | handing id attempt take rest satisfied =>
    intro hsat
    obtain ⟨c, hc, rfl, hstop⟩ := h hsat
    obtain ⟨c', hc', hid, hcur, hle⟩ := hkeep c hc rfl
    exact ⟨c', hc', hid, by omega⟩
  | waiting id attempt => exact h
  | releasing id exit =>
    cases exit with
    | some exit => exact h
    | none =>
      obtain ⟨c, hc, rfl, hstop⟩ := h
      obtain ⟨c', hc', hid, hcur, hle⟩ := hkeep c hc rfl
      exact ⟨c', hc', hid, by omega⟩
  | exited exit =>
    cases exit with
    | exhausted => exact hfree h
    | retired => exact hretired h
    | cancelled => exact h
    | failed error => exact h
  | joined => exact h.imp hfree hretired
  | _ => trivial

theorem steady_endBody {c : ClaimSlot} {attempt : ℕ} {r : Shared × Worker}
    (h : w.endBody ctx retire c attempt sh = r) (hc : c ∈ sh.plan.slots)
    (hdone : c.stop ≤ c.cursor) :
    r.2.phase.Steady r.1.plan retire ∧ r.1.plan.free = sh.plan.free := by
  rcases Worker.endBody_cases ctx retire c attempt sh w with ⟨-, hlt, -, -⟩ | ⟨-, heq⟩
  · omega
  · rw [heq] at h
    subst h
    exact ⟨⟨c, hc, rfl, hdone⟩, rfl⟩

theorem Worker.Stepped.steady {e : WorkerEvent} {r : Shared × Worker}
    (hst : w.Stepped ctx false retire sh e r) (hv : sh.plan.Valid)
    (h : w.phase.Steady sh.plan retire) (hok : e.succeeds ctx sh.plan w = true) :
    r.2.phase.Steady r.1.plan retire ∧ (sh.plan.free = [] → r.1.plan.free = []) := by
  cases hst with
  | builds ok =>
    obtain rfl : ok = true := hok
    exact ⟨trivial, id⟩
  | checks =>
    refine ⟨?_, id⟩
    cases retire with
    | true => exact rfl
    | false => trivial
  | claims plan c hp hreq =>
    refine ⟨trivial, fun hfree => ?_⟩
    have := Plan.request_free hfree
    rwa [hreq] at this
  | exhausts hp hreq =>
    have hfree := Plan.request_free_of_exhausted hreq
    exact ⟨hfree, fun _ => hfree⟩
  | skips c attempt hp hc hdone =>
    exact ⟨⟨c, (Plan.mem_of_slot? hc).1, rfl, of_decide_eq_true hdone⟩, id⟩
  | withdraws _ _ _ _ _ hcancelled => exact absurd hcancelled Bool.false_ne_true
  | connects => exact ⟨trivial, id⟩
  | accepts => exact ⟨trivial, id⟩
  | refuses r id attempt start stop error hp herror =>
    simp only [WorkerEvent.succeeds, hp, herror] at hok
    exact absurd hok Bool.false_ne_true
  | stops _ _ _ _ hcancelled => exact absurd hcancelled Bool.false_ne_true
  | reads => exact ⟨trivial, id⟩
  | breaks p id attempt rest hp hpoll =>
    rcases hpoll with rfl | rfl <;> exact absurd hok Bool.false_ne_true
  | ends c attempt rest hp hc =>
    simp only [WorkerEvent.succeeds, hp, hc, Option.all_some] at hok
    have hend : w.endBody ctx retire c attempt sh = _ := rfl
    obtain ⟨h₁, h₂⟩ := steady_endBody hend (Plan.mem_of_slot? hc).1 (of_decide_eq_true hok)
    exact ⟨h₁, fun hfree => h₂.trans hfree⟩
  | shrunk c attempt rest n writerGone hp hc hle =>
    have hend : w.endBody ctx retire c attempt sh = _ := rfl
    obtain ⟨h₁, h₂⟩ := steady_endBody hend (Plan.mem_of_slot? hc).1 hle
    exact ⟨h₁, fun hfree => h₂.trans hfree⟩
  | abandoned => exact absurd hok Bool.false_ne_true
  | hands c attempt rest n hp hc hn hlt =>
    refine ⟨fun hsat => ⟨c, (Plan.mem_of_slot? hc).1, rfl, ?_⟩, id⟩
    -- the chunk was longer than what was left of the claim
    have := of_decide_eq_true hsat
    omega
  | advances => exact ⟨trivial, id⟩
  | satisfied c attempt take rest hp hc =>
    rw [hp] at h
    have hmem := (Plan.mem_of_slot? hc).1
    obtain ⟨d, hd, hid, hstop⟩ := h rfl
    obtain rfl := hv.eq_of_id_eq hmem hd hid.symm
    have hadv : c.advance take ∈ (sh.plan.modifySlot c.id (ClaimSlot.advance take)).slots :=
      Plan.mem_modifySlot.2 ⟨c, hmem, (if_pos rfl).symm⟩
    have hend : Worker.endBody ctx retire (c.advance take) attempt
        { sh with plan := sh.plan.modifySlot c.id (ClaimSlot.advance take) }
        { w with bytes := w.bytes + take } = _ := rfl
    obtain ⟨h₁, h₂⟩ := steady_endBody hend hadv hstop
    exact ⟨h₁, fun hfree => h₂.trans hfree⟩
  | wakes id attempt hp =>
    rw [hp] at h
    exact h.elim
  | interrupts id attempt hp =>
    rw [hp] at h
    exact h.elim
  | releases id exit hp =>
    rw [hp] at h
    cases exit with
    | some exit => exact h.elim
    | none =>
      obtain ⟨c, hc, rfl, hdone⟩ := h
      exact ⟨trivial, fun hfree => (hv.release_free hc hdone).trans hfree⟩

/-- A step without failure keeps a worker steady and frees nothing. -/
theorem Worker.steady_of_step {e : WorkerEvent} (hv : sh.plan.Valid)
    (h : w.phase.Steady sh.plan retire) (hok : e.succeeds ctx sh.plan w = true)
    (hst : w.step ctx false retire sh e = some (sh', w')) :
    w'.phase.Steady sh'.plan retire ∧ (sh.plan.free = [] → sh'.plan.free = []) :=
  (stepped hst).steady hv h hok

end Worker

/-! ### The whole machine -/

namespace Drive

variable {cfg : DriveCfg} {s s' : Drive}

/-- Unclaimed ranges have a worker to come back for them: nothing is cancelled, every worker is
steady under its token, and as long as something is unclaimed a token is left. -/
structure Staffed (s : Drive) : Prop where
  owned : s.Owned
  calm : s.cancelled = false
  tokens : s.retireTokens.length = s.workers.length
  steady : ∀ (i : ℕ) (w : Worker), s.workers[i]? = some w →
    w.phase.Steady s.shared.plan (s.retireTokens.getD i false)
  spared : s.shared.plan.free ≠ [] → 0 < s.retireTokens.count false
  joined : s.pc = .leaving ∨ s.pc = .left → ∀ w ∈ s.workers, w.phase = .joined

theorem Staffed.congr (h : s.Staffed) (hshared : s'.shared = s.shared)
    (hworkers : s'.workers = s.workers) (htokens : s'.retireTokens = s.retireTokens)
    (hcalm : s'.cancelled = s.cancelled)
    (hpc : s'.pc = .leaving ∨ s'.pc = .left → s.pc = .leaving ∨ s.pc = .left) : s'.Staffed where
  owned := h.owned.congr (by rw [hshared]) fun i => by unfold slotOf; rw [hworkers]
  calm := hcalm.trans h.calm
  tokens := by rw [htokens, hworkers]; exact h.tokens
  steady := by rw [hworkers, hshared, htokens]; exact h.steady
  spared := by rw [hshared, htokens]; exact h.spared
  joined := by rw [hworkers]; exact fun hover => h.joined (hpc hover)

theorem Staffed.retire (h : s.Staffed) {target : ℕ} (hsp : s.spares target = true) :
    (s.retire target).Staffed where
  owned := h.owned.congr rfl fun _ => rfl
  calm := h.calm
  tokens := (retireLoop_length _ _).trans h.tokens
  steady := by
    intro i w hw
    refine (h.steady i w hw).congr id (?_) fun c hc _ => ⟨c, hc, rfl, rfl, le_rfl⟩
    intro htoken
    show (retireDownTo s.retireTokens s.conns target).getD i false = true
    have hi : i < s.retireTokens.length := h.tokens ▸ (List.getElem?_eq_some_iff.1 hw).1
    rw [List.getD_eq_getElem?_getD, List.getElem?_eq_getElem hi, Option.getD_some] at htoken
    have hkept := retireLoop_of_true (s.conns - max target 1) s.retireTokens
      (List.getElem?_eq_some_iff.2 ⟨hi, htoken⟩)
    rw [List.getD_eq_getElem?_getD, retireDownTo, hkept, Option.getD_some]
  spared := by
    intro hfree
    show 0 < (retireLoop (s.conns - max target 1) s.retireTokens).count false
    rw [retireLoop_count]
    rcases Bool.or_eq_true_iff.1 hsp with hempty | hlt
    · exact absurd (List.isEmpty_iff.1 hempty) hfree
    · exact Nat.sub_pos_of_lt (of_decide_eq_true hlt)
  joined := h.joined

theorem Staffed.spawn (h : s.Staffed) (n : ℕ) (hpc : s.pc ≠ .leaving ∧ s.pc ≠ .left) :
    (spawnWorkers n s).Staffed where
  owned := h.owned.congr (by rw [spawnWorkers_shared]) fun j => slotOf_append spawnWorkers_workers j
  calm := spawnWorkers_cancelled.trans h.calm
  tokens := by simp [h.tokens]
  steady := by
    intro i w hw
    rw [spawnWorkers_workers, List.getElem?_append] at hw
    rw [spawnWorkers_shared, spawnWorkers_retireTokens, List.getD_eq_getElem?_getD,
      List.getElem?_append]
    split_ifs at hw with hi
    · rw [if_pos (h.tokens ▸ hi), ← List.getD_eq_getElem?_getD]
      exact h.steady i w hw
    · rw [List.eq_of_mem_replicate (List.mem_of_getElem? hw)]
      trivial
  spared := by
    intro hfree
    rw [spawnWorkers_shared] at hfree
    rw [spawnWorkers_retireTokens, List.count_append]
    exact Nat.add_pos_left (h.spared hfree) _
  joined := by
    intro hover
    rw [spawnWorkers_pc] at hover
    exact absurd hover (not_or.2 hpc)

theorem Staffed.worker (h : s.Staffed) {i : ℕ} {we : WorkerEvent}
    (hok : s.undisturbed cfg (.worker i we) = true) (hs : s.step cfg (.worker i we) = some s') :
    s'.Staffed := by
  have howned := h.owned.step hs
  obtain ⟨w, sh, w', -, hw, hst, rfl⟩ := step_worker hs
  have heff := Worker.effect_of_step hst
  rw [h.calm] at hst
  have hok : we.succeeds cfg.ctx s.shared.plan w = true := by
    simpa only [undisturbed, hw, Option.all_some] using hok
  obtain ⟨hsteady, hfree⟩ := Worker.steady_of_step h.owned.valid (h.steady i w hw) hok hst
  refine ⟨howned, h.calm, by simpa using h.tokens, ?_,
    fun hne => h.spared fun hnil => hne (hfree hnil), ?_⟩
  · intro j v hv
    obtain ⟨hi, -⟩ := List.getElem?_eq_some_iff.1 hw
    simp only [List.getElem?_set] at hv
    split_ifs at hv with hij
    · obtain rfl := Option.some.inj hv
      rw [← hij]
      exact hsteady
    · exact (h.steady j v hv).congr hfree id fun c hc hcj =>
        h.owned.cursor_kept hw heff (Ne.symm hij) hc ((slotOf_of_getElem? hv).trans hcj)
  · intro hover
    rw [Worker.step_joined (h.joined hover w (List.mem_of_getElem? hw))] at hst
    simp at hst

theorem Staffed.join (h : s.Staffed) {i : ℕ} (hs : s.step cfg (.join i) = some s') :
    s'.Staffed := by
  have howned := h.owned.step hs
  obtain ⟨w, exit, hpc, hw, hphase, rfl⟩ := step_join hs
  obtain ⟨hshared, hworkers, htokens, -, -, hpc'⟩ := onJoin_spec i w exit s
  have hexit := h.steady i w hw
  rw [hphase] at hexit
  have hok : ∀ error, exit ≠ .failed error := by
    rintro error rfl
    exact hexit
  have hcalm := (onJoin_of_ne_failed hok i w s).1
  refine ⟨howned, hcalm.trans h.calm, by rw [htokens, hworkers, List.length_set]; exact h.tokens,
    ?_, by rw [hshared, htokens]; exact h.spared, ?_⟩
  · intro j v hv
    obtain ⟨hi, -⟩ := List.getElem?_eq_some_iff.1 hw
    rw [hshared, htokens]
    rw [hworkers, List.getElem?_set] at hv
    split_ifs at hv with hij
    · obtain rfl := Option.some.inj hv
      rw [← hij]
      cases exit with
      | exhausted => exact Or.inl hexit
      | retired => exact Or.inr hexit
      | cancelled => exact hexit.elim
      | failed error => exact hexit.elim
    · exact h.steady j v hv
  · intro hover
    rw [hpc', hpc] at hover
    rw [hworkers]
    split_ifs at hover with hall
    · exact fun v hv => of_decide_eq_true (List.all_eq_true.1 hall v hv)
    · simp at hover

theorem Staffed.step (h : s.Staffed) {e : DriveEvent} (hok : s.undisturbed cfg e = true)
    (hsp : s.sparing e = true) (hs : s.step cfg e = some s') : s'.Staffed := by
  cases stepped hs with
  | moves => exact h.worker hok hs
  | joins => exact h.join hs
  | cancels => exact absurd hok Bool.false_ne_true
  | quits now pressed hpc hcancelled =>
    rw [h.calm] at hcancelled
    cases hcancelled
  | samples => exact h.congr rfl rfl rfl rfl fun hover => by simp at hover
  | ticks => exact h.congr rfl rfl rfl rfl id
  | spawns n hpc =>
    have hspawned := h.spawn (min n s.shared.plan.usefulWorkers - s.conns) (by simp [hpc])
    exact hspawned.congr rfl rfl rfl rfl fun hover => by simp at hover
  | retires d target hpc hd =>
    have hspares : s.spares target = true := by
      simpa only [sparing, hpc, hd, Option.all_some] using hsp
    exact (h.retire hspares).congr rfl rfl rfl rfl fun hover => by simp at hover
  | holds => exact h.congr rfl rfl rfl rfl fun hover => by simp at hover
  | thins target hpc htarget =>
    have hspares : s.spares target = true := by
      simpa only [sparing, htarget, Option.all_some] using hsp
    exact (h.retire hspares).congr rfl rfl rfl rfl fun hover => by simp at hover
  | goesOn => exact h.congr rfl rfl rfl rfl fun hover => by simp at hover
  | leaves hpc => exact h.congr rfl rfl rfl rfl fun _ => .inl hpc

theorem staffed_start (total : Option ℕ) {completed : RangeSet} (hc : completed.Ordered)
    (seed : ℕ) (govCfg : GovernorConfig) {k0 : ℕ} (hk0 : 1 ≤ k0) (now : Nanos) :
    (start ((Plan.new total completed).seed seed) govCfg k0 now).Staffed := by
  refine ⟨.start total hc seed govCfg k0 now, by simp [start], by simp [start],
    ?_, ?_, fun hover => by simp [start] at hover⟩
  · intro i w hw
    simp only [start, spawnWorkers_workers, List.nil_append] at hw
    rw [List.eq_of_mem_replicate (List.mem_of_getElem? hw)]
    trivial
  · intro _
    have : 0 < k0 := hk0
    simpa [start] using this

/-- When all workers are gone, nothing is unclaimed and no claim is left. -/
theorem Staffed.nothing_left (h : s.Staffed) (hleft : s.pc = .left) :
    s.shared.plan.free = [] ∧ s.shared.plan.outstanding = 0 := by
  have hjoined := h.joined (Or.inr hleft)
  have hfree : s.shared.plan.free = [] := by
    by_contra hne
    -- a token that is left belongs to a worker, and that worker would have come back
    obtain ⟨i, hi, htoken⟩ := List.getElem_of_mem (List.count_pos_iff.1 (h.spared hne))
    have hiw : i < s.workers.length := h.tokens ▸ hi
    have hsteady := h.steady i _ (List.getElem?_eq_getElem hiw)
    rw [hjoined _ (List.getElem_mem hiw), List.getD_eq_getElem?_getD, List.getElem?_eq_getElem hi,
      htoken] at hsteady
    rcases hsteady with hnil | htrue
    · exact hne hnil
    · exact absurd htrue Bool.false_ne_true
  have hslots : s.shared.plan.slots = [] := by
    refine List.eq_nil_iff_forall_not_mem.2 ?_
    intro c hc
    obtain ⟨i, hi⟩ := h.owned.held c hc
    obtain ⟨w, hw, hslot⟩ := Option.bind_eq_some_iff.1 hi
    rw [hjoined w (List.mem_of_getElem? hw)] at hslot
    simp [WorkerPhase.slot?] at hslot
  refine ⟨hfree, ?_⟩
  simp [Plan.outstanding, Plan.activeSlots, hfree, hslots]

end Drive

/-- **No stranded work.**  A run without failures and cancellation leaves nothing unclaimed when
the driver returns, if each time it stands workers down a token is left or everything is
claimed. -/
theorem no_stranded_work {cfg : DriveCfg} {t : ℕ} {completed : RangeSet} (hc : completed.Ordered)
    {seed k0 : ℕ} (hk0 : 1 ≤ k0) {govCfg : GovernorConfig} {now : Nanos} {s : Drive}
    (h : (driveMachine cfg).ReachesUnder
      (fun s e => s.undisturbed cfg e = true ∧ s.sparing e = true)
      (.start ((Plan.new (some t) completed).seed seed) govCfg k0 now) s)
    (hleft : s.pc = .left) : s.shared.plan.free = [] ∧ s.shared.plan.outstanding = 0 :=
  (h.invariant (Drive.staffed_start (some t) hc seed govCfg hk0 now)
    fun _ _ _ ih hp hst => ih.step hp.1 hp.2 hst).nothing_left hleft

/-- Eight megabytes with three bytes missing. -/
def threeGaps : RangeSet := ⟨[(1, 100), (102, 100), (203, 8388405)]⟩

/-- The answer to a request for the byte at `start`. -/
def oneByte (start : ℕ) (h : start < 8388608) : Response where
  status := 206
  contentRange := some ⟨start, start, some 8388608, le_rfl, fun _ ht => Option.some.inj ht ▸ h⟩
  body := [0]

/-- The events of worker `i` from its request to its exit. -/
def fetchOne (i : ℕ) (r : Response) : List DriveEvent :=
  [.connect, .respond (some r), .proceed, .poll (.chunk 1 false), .advance, .proceed, .poll .ended,
    .release, .check].map (.worker i)

/-- Two workers have a gap each and the third is unclaimed.  The endgame check cancels the token of
worker 0, which exits after its gap; worker 1 goes on. -/
def sparedRun : List DriveEvent :=
  [.worker 0 (.build true), .worker 0 .check, .worker 0 .request,
      .worker 1 (.build true), .worker 1 .check, .worker 1 .request,
      .tick 0 false, .act, .endgame] ++
    fetchOne 0 (oneByte 202 (by decide)) ++ fetchOne 1 (oneByte 101 (by decide)) ++
    [.worker 1 .request] ++ fetchOne 1 (oneByte 0 (by decide)) ++
    [.worker 1 .request, .join 0, .join 1, .leave]

/-- A worker is stood down while a gap is unclaimed, and nothing is left behind. -/
theorem no_stranded_work_small :
    ∃ s, (driveMachine ⟨⟨.supported, some 8388608, 5⟩, true, 8388605⟩).exec
        (.start ((Plan.new (some 8388608) threeGaps).seed 2) {} 2 0) sparedRun = some s ∧
      s.retireTokens = [true, false] ∧
      s.shared.plan.free = [] ∧ s.shared.plan.outstanding = 0 := by
  have hrun : ((driveMachine ⟨⟨.supported, some 8388608, 5⟩, true, 8388605⟩).execUnder
      (fun s e => s.undisturbed ⟨⟨.supported, some 8388608, 5⟩, true, 8388605⟩ e = true ∧
        s.sparing e = true)
      (.start ((Plan.new (some 8388608) threeGaps).seed 2) {} 2 0) sparedRun).map
        (fun s => (s.pc, s.retireTokens)) = some (.left, [true, false]) := by
    decide +kernel
  obtain ⟨s, hs, hend⟩ := Option.map_eq_some_iff.1 hrun
  obtain ⟨hleft, htokens⟩ := Prod.mk.inj hend
  have hgaps : threeGaps.Ordered := by decide +kernel
  exact ⟨s, Machine.exec_of_execUnder hs, htokens,
    no_stranded_work hgaps (by decide) (Machine.reachesUnder_of_execUnder hs) hleft⟩

/-- **Stranded work.**  As there, but a second endgame check follows at once.  It cancels the token
of worker 1, since both still count as live.  Both exit after their gap, and the driver returns
without an error. -/
theorem stranded_work :
    ∃ s, (driveMachine ⟨⟨.supported, some 8388608, 5⟩, true, 8388605⟩).ReachesUnder
        (fun s e => s.undisturbed ⟨⟨.supported, some 8388608, 5⟩, true, 8388605⟩ e = true)
        (.start ((Plan.new (some 8388608) threeGaps).seed 2) {} 2 0) s ∧
      s.pc = .left ∧ s.fatal = none ∧ s.shared.plan.free = [(0, 1)] := by
  have hrun : ((driveMachine ⟨⟨.supported, some 8388608, 5⟩, true, 8388605⟩).execUnder
      (fun s e => s.undisturbed ⟨⟨.supported, some 8388608, 5⟩, true, 8388605⟩ e = true)
      (.start ((Plan.new (some 8388608) threeGaps).seed 2) {} 2 0)
      ([.worker 0 (.build true), .worker 0 .check, .worker 0 .request,
          .worker 1 (.build true), .worker 1 .check, .worker 1 .request,
          .tick 0 false, .act, .endgame, .tick (millis 50) false, .act, .endgame] ++
        fetchOne 0 (oneByte 202 (by decide)) ++ fetchOne 1 (oneByte 101 (by decide)) ++
        [.join 0, .join 1, .leave])).map (fun s => (s.pc, s.fatal, s.shared.plan.free)) =
          some (.left, none, [(0, 1)]) := by
    decide +kernel
  obtain ⟨s, hs, hend⟩ := Option.map_eq_some_iff.1 hrun
  simp only [Prod.mk.injEq] at hend
  exact ⟨s, Machine.reachesUnder_of_execUnder hs, hend⟩

end SwiftLoad
