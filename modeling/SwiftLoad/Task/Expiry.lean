import SwiftLoad.Task.Progress

/-!
# Expired links

A worker that is answered 403 hands the whole download the verdict `UrlExpired`.  The driver keeps
the verdict of the first failure that it takes notice of.

* `WorkerPhase.expired` : the worker stops because it was answered 403.
* `Worker.expired_of_step` : nothing but such an answer makes it stop so.
* `Drive.Told` : the invariant over the events so far.
* `Drive.fatal_expired_iff` : when the driver ends with the verdict `UrlExpired`.
-/

namespace SwiftLoad

/-- The verdict on an answer of a worker's URL is `UrlExpired` exactly for a 403. -/
theorem classifyStatus_worked_iff {status : ℕ} {retryAfter : Option Nanos} :
    classifyStatus status retryAfter true = .urlExpired ↔ status = 403 := by
  unfold classifyStatus
  split_ifs with h₁ h₂ h₃ h₄ h₅ h₆ h₇
  · simp [h₁]
  · simp [h₂]
  · refine iff_of_false (by simp) fun h => ?_
    simp [h] at h₃
  · simp [h₄.1]
  · simp [h₅]
  all_goals
    refine iff_of_false (by simp) fun h => h₄ ⟨h, rfl⟩

/-- A probe never says that a URL has expired when it is told that the URL did not work before. -/
theorem classifyStatus_fresh_ne (status : ℕ) (retryAfter : Option Nanos) :
    classifyStatus status retryAfter false ≠ .urlExpired := by
  unfold classifyStatus
  split_ifs <;> simp_all

theorem WorkerCtx.verify_expired_iff {ctx : WorkerCtx} {start : ℕ} {r : Option Response} :
    ctx.verify start r = .error .urlExpired ↔ ∃ resp, r = some resp ∧ resp.status = 403 := by
  cases r with
  | none => simp [verify]
  | some resp =>
    have hsuccess : resp.status = 403 → resp.success = false := fun h => by
      simp [Response.success, h]
    simp only [verify, Option.some.injEq, exists_eq_left']
    split_ifs with h₁ h₂ h₃ h₄ h₅ h₆
    · rw [Except.error.injEq]
      exact classifyStatus_worked_iff
    all_goals
      refine iff_of_false (by simp) fun h => h₁ (hsuccess h)

/-- The worker stops because it was answered 403. -/
def WorkerPhase.expired : WorkerPhase → Bool
  | .releasing _ (some (.failed .urlExpired)) | .exited (.failed .urlExpired) => true
  | _ => false

/-- A request of the worker is answered 403. -/
def WorkerEvent.forbidden : WorkerEvent → Bool
  | .respond (some r) => decide (r.status = 403)
  | _ => false

theorem WorkerEvent.forbidden_respond_iff {r : Option Response} :
    (WorkerEvent.respond r).forbidden = true ↔ ∃ resp, r = some resp ∧ resp.status = 403 := by
  cases r <;> simp [forbidden]

namespace Worker

variable {ctx : WorkerCtx} {cancelled retire : Bool} {sh sh' : Shared} {w w' : Worker}
  {e : WorkerEvent} {r : Shared × Worker}

theorem expired_fail (ctx : WorkerCtx) (id attempt : ℕ) (error : ErrorClass) (sh : Shared)
    (w : Worker) :
    (w.fail ctx id attempt error sh).2.phase.expired = decide (error = .urlExpired) := by
  unfold fail
  dsimp only
  split_ifs with h
  · cases error <;> rfl
  · push Not at h
    cases error <;> first | rfl | exact absurd rfl h.1

theorem expired_endBody (ctx : WorkerCtx) (retire : Bool) (c : ClaimSlot) (attempt : ℕ)
    (sh : Shared) (w : Worker) : (w.endBody ctx retire c attempt sh).2.phase.expired = false := by
  rcases endBody_cases ctx retire c attempt sh w with ⟨-, -, -, h⟩ | ⟨-, h⟩ <;> rw [h]
  · exact expired_fail _ _ _ _ _ _
  · rfl

theorem Stepped.expired (h : w.Stepped ctx cancelled retire sh e r) :
    r.2.phase.expired = (w.phase.expired || e.forbidden) := by
  cases h with
  | builds ok hp => cases ok <;> simp [hp, WorkerPhase.expired, WorkerEvent.forbidden]
  | checks hp =>
    cases cancelled <;> cases retire <;> simp [hp, WorkerPhase.expired, WorkerEvent.forbidden]
  | refuses resp id attempt start stop error hp hv =>
    have hiff : error = .urlExpired ↔ (WorkerEvent.respond resp).forbidden = true := by
      rw [WorkerEvent.forbidden_respond_iff, ← WorkerCtx.verify_expired_iff, hv, Except.error.injEq]
    rw [expired_fail, hp, Bool.eq_iff_iff, decide_eq_true_iff, hiff]
    rfl
  | accepts resp id attempt start stop body hp hv =>
    have hallowed : (WorkerEvent.respond resp).forbidden = false := by
      refine Bool.eq_false_iff.2 fun h => ?_
      have hexpired : ctx.verify start resp = .error .urlExpired :=
        WorkerCtx.verify_expired_iff.2 (WorkerEvent.forbidden_respond_iff.1 h)
      cases hv.symm.trans hexpired
    rw [hp, hallowed]
    rfl
  | stops id attempt rest hp => rw [expired_fail, hp]; rfl
  | breaks p id attempt rest hp => rw [expired_fail, hp]; rfl
  | ends c attempt rest hp => rw [expired_endBody, hp]; rfl
  | shrunk c attempt rest n gone hp => rw [expired_endBody, hp]; rfl
  | abandoned c attempt rest n hp => rw [expired_fail, hp]; rfl
  | satisfied c attempt take rest hp => rw [expired_endBody, hp]; rfl
  | releases id exit hp =>
    rw [hp]
    cases exit with
    | none => rfl
    | some exit =>
      cases exit with
      | failed error => cases error <;> rfl
      | _ => rfl
  | claims plan c hp => rw [hp]; rfl
  | exhausts hp => rw [hp]; rfl
  | skips c attempt hp => rw [hp]; rfl
  | withdraws c attempt hp => rw [hp]; rfl
  | connects c attempt hp => rw [hp]; rfl
  | reads id attempt rest hp => rw [hp]; rfl
  | hands c attempt rest n hp => rw [hp]; rfl
  | advances c attempt take rest hp => rw [hp]; rfl
  | wakes id attempt hp => rw [hp]; rfl
  | interrupts id attempt hp => rw [hp]; rfl

/-- **A worker stops because of an expired link exactly when it is answered 403.** -/
theorem expired_of_step (h : w.step ctx cancelled retire sh e = some (sh', w')) :
    w'.phase.expired = (w.phase.expired || e.forbidden) := (stepped h).expired

end Worker

/-! ### The driver -/

namespace Drive

variable {cfg : DriveCfg} {s₀ s s' d : Drive} {es : List DriveEvent}

/-- A request of worker `i` was answered 403. -/
def Forbidden (i : ℕ) (es : List DriveEvent) : Prop :=
  ∃ e, .worker i e ∈ es ∧ e.forbidden = true

theorem not_forbidden_nil (i : ℕ) : ¬Forbidden i [] := by
  rintro ⟨e, he, -⟩
  cases he

theorem forbidden_snoc {i : ℕ} {e : DriveEvent} :
    Forbidden i (es ++ [e]) ↔ Forbidden i es ∨ ∃ we, e = .worker i we ∧ we.forbidden = true := by
  constructor
  · rintro ⟨we, hwe, hf⟩
    rcases List.mem_append.1 hwe with hwe | hwe
    · exact .inl ⟨we, hwe, hf⟩
    · exact .inr ⟨we, (List.mem_singleton.1 hwe).symm, hf⟩
  · rintro (⟨we, hwe, hf⟩ | ⟨we, rfl, hf⟩)
    · exact ⟨we, List.mem_append_left _ hwe, hf⟩
    · exact ⟨we, List.mem_append_right _ List.mem_cons_self, hf⟩

theorem forbidden_snoc_of_ne {i : ℕ} {e : DriveEvent} (h : ∀ we, e ≠ .worker i we) :
    Forbidden i (es ++ [e]) ↔ Forbidden i es := by
  rw [forbidden_snoc]
  exact or_iff_left fun ⟨we, he, _⟩ => h we he

/-- The invariant over the events so far: a worker that was answered 403 exists, and the workers
whose exit the driver has not seen stop because of an expired link exactly when they were. -/
structure Told (es : List DriveEvent) (s : Drive) : Prop where
  present : ∀ i, Forbidden i es → i < s.workers.length
  expired : ∀ i w, s.workers[i]? = some w → w.phase ≠ .joined →
    (w.phase.expired = true ↔ Forbidden i es)

theorem Told.congr (h : s.Told es) (hworkers : s'.workers = s.workers) {e : DriveEvent}
    (he : ∀ i we, e ≠ .worker i we) : s'.Told (es ++ [e]) where
  present := fun i hi => by
    rw [hworkers]
    exact h.present i ((forbidden_snoc_of_ne (he i)).1 hi)
  expired := fun i w hw hne => by
    rw [hworkers] at hw
    rw [forbidden_snoc_of_ne (he i)]
    exact h.expired i w hw hne

theorem Told.worker (h : s.Told es) {i : ℕ} {we : WorkerEvent}
    (hs : s.step cfg (.worker i we) = some s') : s'.Told (es ++ [.worker i we]) := by
  obtain ⟨w, sh, w', -, hw, hst, rfl⟩ := step_worker hs
  obtain ⟨hi, -⟩ := List.getElem?_eq_some_iff.1 hw
  refine ⟨fun j hj => ?_, fun j v hv hne => ?_⟩
  · rw [List.length_set]
    rcases forbidden_snoc.1 hj with hj | ⟨we', he, -⟩
    · exact h.present j hj
    · cases he
      exact hi
  · rw [forbidden_snoc]
    by_cases hij : i = j
    · subst hij
      rw [List.getElem?_set_self hi] at hv
      obtain rfl := Option.some.inj hv
      have hold : w.phase ≠ .joined := fun hj => by
        rw [Worker.step_joined hj] at hst
        cases hst
      rw [Worker.expired_of_step hst, Bool.or_eq_true, h.expired i w hw hold]
      simp
    · rw [List.getElem?_set_ne hij] at hv
      rw [h.expired j v hv hne]
      exact (or_iff_left fun ⟨we', he, _⟩ => hij (DriveEvent.worker.inj he).1).symm

theorem Told.join (h : s.Told es) {i : ℕ} (hs : s.step cfg (.join i) = some s') :
    s'.Told (es ++ [.join i]) := by
  obtain ⟨w, exit, -, hw, -, rfl⟩ := step_join hs
  obtain ⟨-, hworkers, -⟩ := onJoin_spec i w exit s
  obtain ⟨hi, -⟩ := List.getElem?_eq_some_iff.1 hw
  refine ⟨fun j hj => ?_, fun j v hv hne => ?_⟩
  · rw [hworkers, List.length_set]
    exact h.present j ((forbidden_snoc_of_ne (by simp)).1 hj)
  · rw [forbidden_snoc_of_ne (by simp)]
    rw [hworkers] at hv
    by_cases hij : i = j
    · subst hij
      rw [List.getElem?_set_self hi] at hv
      obtain rfl := Option.some.inj hv
      exact absurd rfl hne
    · rw [List.getElem?_set_ne hij] at hv
      exact h.expired j v hv hne

theorem Told.spawn (h : s.Told es) {n : ℕ} {e : DriveEvent} (he : ∀ i we, e ≠ .worker i we)
    (hworkers : s'.workers = s.workers ++ List.replicate n Worker.new) : s'.Told (es ++ [e]) := by
  refine ⟨fun j hj => ?_, fun j v hv hne => ?_⟩
  · have := h.present j ((forbidden_snoc_of_ne (he j)).1 hj)
    rw [hworkers, List.length_append]
    omega
  · rw [forbidden_snoc_of_ne (he j)]
    rw [hworkers] at hv
    by_cases hj : j < s.workers.length
    · rw [List.getElem?_append_left hj] at hv
      exact h.expired j v hv hne
    · -- a worker that was just spawned
      rw [List.getElem?_append_right (Nat.not_lt.1 hj)] at hv
      obtain rfl := List.eq_of_mem_replicate (List.mem_of_getElem? hv)
      exact iff_of_false (by decide) fun hf => hj (h.present j hf)

theorem Told.step (h : s.Told es) {e : DriveEvent} (hs : s.step cfg e = some s') :
    s'.Told (es ++ [e]) := by
  cases stepped hs with
  | moves => exact h.worker hs
  | joins => exact h.join hs
  | spawns n hpc => exact h.spawn (by simp) spawnWorkers_workers
  | cancels => exact h.congr (by rfl) (by simp)
  | quits => exact h.congr (by rfl) (by simp)
  | samples => exact h.congr (by rfl) (by simp)
  | ticks => exact h.congr (by rfl) (by simp)
  | retires => exact h.congr (by rfl) (by simp)
  | holds => exact h.congr (by rfl) (by simp)
  | thins => exact h.congr (by rfl) (by simp)
  | goesOn => exact h.congr (by rfl) (by simp)
  | leaves => exact h.congr (by rfl) (by simp)

theorem told_of_exec (h₀ : s₀.workers = List.replicate s₀.workers.length Worker.new)
    (h : (driveMachine cfg).exec s₀ es = some s) : s.Told es := by
  refine Machine.exec_invariant h ⟨fun i hi => absurd hi (not_forbidden_nil i), ?_⟩
    fun es s e s' _ ih hs => ih.step hs
  intro i w hw _
  rw [h₀] at hw
  obtain rfl := List.eq_of_mem_replicate (List.mem_of_getElem? hw)
  exact iff_of_false (by decide) (not_forbidden_nil i)

/-- Only the first failure that the driver takes notice of counts. -/
theorem fatal_of_step {e : DriveEvent} (hs : s.step cfg e = some s') :
    s'.fatal = s.fatal ∨ ∃ i w error, e = .join i ∧ s.workers[i]? = some w ∧
      w.phase = .exited (.failed error) ∧ s'.fatal = s.fatal.orElse fun _ => some error := by
  cases stepped hs with
  | joins i w exit hpc hw hphase =>
    cases exit with
    | failed error =>
      refine .inr ⟨i, w, error, rfl, hw, hphase, ?_⟩
      unfold onJoin
      dsimp only
      split_ifs <;> rfl
    | exhausted => exact .inl (onJoin_of_ne_failed (fun _ he => by cases he) i w s).2
    | retired => exact .inl (onJoin_of_ne_failed (fun _ he => by cases he) i w s).2
    | cancelled => exact .inl (onJoin_of_ne_failed (fun _ he => by cases he) i w s).2
  | spawns n => exact .inl spawnWorkers_fatal
  | _ => exact .inl rfl

theorem fatal_of_exec {error : ErrorClass} (hf : s.fatal = some error)
    (h : (driveMachine cfg).exec s es = some s') : s'.fatal = some error := by
  refine Machine.exec_invariant (I := fun _ t => t.fatal = some error) h hf ?_
  intro es s e s' _ ih hs
  rcases fatal_of_step hs with h | ⟨_, _, _, _, _, _, h⟩
  · exact h.trans ih
  · rw [h, ih]
    rfl

/-- A verdict comes from the first failure that the driver took notice of. -/
theorem exists_join_of_fatal {error : ErrorClass} (h₀ : s₀.fatal = none)
    (h : (driveMachine cfg).exec s₀ es = some s) (hf : s.fatal = some error) :
    ∃ before i after t w, es = before ++ .join i :: after ∧
      (driveMachine cfg).exec s₀ before = some t ∧ t.fatal = none ∧ t.workers[i]? = some w ∧
        w.phase = .exited (.failed error) := by
  revert hf
  refine Machine.exec_invariant (I := fun es s => s.fatal = some error → ∃ before i after t w,
    es = before ++ .join i :: after ∧ (driveMachine cfg).exec s₀ before = some t ∧
      t.fatal = none ∧ t.workers[i]? = some w ∧ w.phase = .exited (.failed error)) h ?_ ?_
  · intro hf
    cases h₀.symm.trans hf
  · intro es s e s' hes ih hs hf
    cases hold : s.fatal with
    | some error' =>
      have hkept : s'.fatal = some error' := by
        rcases fatal_of_step hs with h | ⟨_, _, _, _, _, _, h⟩
        · exact h.trans hold
        · rw [h, hold]
          rfl
      obtain rfl := Option.some.inj (hkept.symm.trans hf)
      obtain ⟨before, i, after, t, w, rfl, hrest⟩ := ih hold
      exact ⟨before, i, after ++ [e], t, w, by simp, hrest⟩
    | none =>
      rcases fatal_of_step hs with h | ⟨i, w, error', rfl, hw, hphase, h⟩
      · cases hf.symm.trans (h.trans hold)
      · rw [hold] at h
        obtain rfl : error = error' := Option.some.inj (hf.symm.trans h)
        exact ⟨es, i, [], s, w, rfl, hes, hold, hw, hphase⟩

variable (cfg s₀ es) in
/-- The first failure that the driver takes notice of is that of a worker that was answered 403. -/
def FirstForbidden : Prop :=
  ∃ before i after s, es = before ++ .join i :: after ∧
    (driveMachine cfg).exec s₀ before = some s ∧ s.fatal = none ∧ Forbidden i before

/-- **The verdict on an expired link.**  The driver ends with it exactly when the first failure that
it takes notice of is that of a worker that was answered 403. -/
theorem fatal_expired_iff (h₀ : s₀.fatal = none)
    (hnew : s₀.workers = List.replicate s₀.workers.length Worker.new)
    (h : (driveMachine cfg).exec s₀ es = some d) :
    d.fatal = some .urlExpired ↔ FirstForbidden cfg s₀ es := by
  constructor
  · intro hf
    obtain ⟨before, i, after, s, w, rfl, hs, hnone, hw, hphase⟩ := exists_join_of_fatal h₀ h hf
    refine ⟨before, i, after, s, rfl, hs, hnone, ?_⟩
    refine ((told_of_exec hnew hs).expired i w hw ?_).1 ?_
    · rw [hphase]
      simp
    · rw [hphase]
      rfl
  · rintro ⟨before, i, after, s, rfl, hs, hnone, hforbidden⟩
    rw [Machine.exec_append, hs, Option.bind_some] at h
    obtain ⟨t, ht, h⟩ := Option.bind_eq_some_iff.1 h
    refine fatal_of_exec ?_ h
    have ht : s.step cfg (.join i) = some t := ht
    obtain ⟨w, exit, -, hw, hphase, rfl⟩ := step_join ht
    have hexpired : w.phase.expired = true := by
      refine ((told_of_exec hnew hs).expired i w hw ?_).2 hforbidden
      rw [hphase]
      simp
    rw [hphase] at hexpired
    obtain rfl : exit = .failed .urlExpired := by
      cases exit with
      | failed error => cases error <;> first | rfl | cases hexpired
      | _ => cases hexpired
    unfold onJoin
    dsimp only
    split_ifs <;> rw [hnone] <;> rfl

end Drive

end SwiftLoad
