import SwiftLoad.Machine.Ranked
import SwiftLoad.Task.Worker

/-!
# A worker on its own

One worker's `run` on a fresh plan, against a server that answers every request properly.  A plan of
unknown size claims everything up to the largest `u64`: what is left of that claim when the body is
over is given back and claimed again.

* `honest` : what a proper server and an undisturbed worker do.
* `Stage` : where such a run stands, with a bound on the steps to come.
* `solo_finishes_iff` : **the worker fetches the body once and leaves, exactly when the claim of the
  plan ends where the body does.**
-/

namespace SwiftLoad

open Ranges

/-- A server with this body answers the request for `[start, stop)`, with a `Range` header or
without. -/
def serves (body : List UInt8) (ranged : Bool) (start stop : ℕ) (r : Response) : Bool :=
  if ranged then
    if start < body.length then
      decide (r.status = 206 ∧ r.transforming = false ∧
        r.body = (body.drop start).take (stop - start)) &&
        r.contentRange.any fun cr => decide (cr.start = start ∧
          cr.stop + 1 = min stop body.length ∧ (cr.total = none ∨ cr.total = some body.length))
    else decide (r.status = 416)
  else decide (r.status = 200 ∧ r.transforming = false ∧ r.body = body)

/-- The events of a worker that nobody disturbs: the client is built, the server answers properly
and sends the body in chunks to its end, and the writer takes them. -/
def honest (body : List UInt8) (ctx : WorkerCtx) (w : Worker) : WorkerEvent → Bool
  | .build ok => ok
  | .respond r =>
    match w.phase with
    | .connecting _ _ start stop => r.any (serves body ctx.useRange start stop)
    | _ => false
  | .poll .ended =>
    match w.phase with
    | .reading _ _ rest => rest.isEmpty
    | _ => false
  | .poll (.chunk n writerGone) => decide (0 < n) && !writerGone
  | .poll _ => false
  | _ => true

/-- A worker with what it shares, as a machine. -/
def soloMachine (ctx : WorkerCtx) : Machine (Shared × Worker) WorkerEvent :=
  ⟨fun s e => s.2.step ctx false false s.1 e⟩

/-- A new worker on a fresh plan. -/
def soloStart (ctx : WorkerCtx) : Shared × Worker := (⟨.new ctx.total .new, 0, []⟩, .new)

/-- The bytes handed to the writer, each with its offset. -/
def handed (sent : List (ℕ × List UInt8)) : List (UInt8 × ℕ) :=
  sent.flatMap fun m => m.2.zipIdx m.1

/-- The event is one of an undisturbed worker and a proper server. -/
abbrev Honest (ctx : WorkerCtx) (body : List UInt8) (s : Shared × Worker) (e : WorkerEvent) :
    Prop :=
  honest body ctx s.2 e = true

/-- Whatever the chunks, the worker leaves because nothing is left, after a bounded number of steps
and requests, and has handed over each byte of the body once and nothing else. -/
def Finishes (ctx : WorkerCtx) (body : List UInt8) : Prop :=
  ∃ bound, (soloMachine ctx).EndsWithin (Honest ctx body) bound (soloStart ctx) fun s =>
    s.2.requests ≤ bound ∧ s.2.phase = .exited .exhausted ∧ (handed s.1.sent).Perm body.zipIdx

/-! ### The stages of a run -/

section Stages

variable (total : Option ℕ) (body : List UInt8)

/-- The plan before the claim. -/
def soloFresh : Plan := ⟨total, [(0, body.length)], [], 0⟩

/-- The plan with the claim at the cursor. -/
def soloHeld (cursor : ℕ) : Plan := ⟨total, [], [⟨0, cursor, body.length, true⟩], 1⟩

/-- The plan with nothing left. -/
def soloDone : Plan := ⟨total, [], [], 1⟩

/-- Where the run stands, when the claim ends where the body does: the phase, the plan, the bytes
handed over, the number of requests and a bound on the steps to come. -/
inductive Stage : WorkerPhase → Plan → List (UInt8 × ℕ) → ℕ → ℕ → Prop
  | starting : Stage .starting (soloFresh total body) [] 0 (3 * body.length + 10)
  | top : Stage .top (soloFresh total body) [] 0 (3 * body.length + 9)
  | asking : Stage .asking (soloFresh total body) [] 0 (3 * body.length + 8)
  | fetching : Stage (.fetching 0 0) (soloHeld total body 0) [] 0 (3 * body.length + 7)
  | connecting :
      Stage (.connecting 0 0 0 body.length) (soloHeld total body 0) [] 1 (3 * body.length + 6)
  | streaming {c : ℕ} (hc : c ≤ body.length) :
      Stage (.streaming 0 0 (body.drop c)) (soloHeld total body c) (body.take c).zipIdx 1
        (3 * (body.length - c) + 5)
  | reading {c : ℕ} (hc : c ≤ body.length) :
      Stage (.reading 0 0 (body.drop c)) (soloHeld total body c) (body.take c).zipIdx 1
        (3 * (body.length - c) + 4)
  | handing {c take : ℕ} (hc : c + take ≤ body.length) :
      Stage (.handing 0 0 take (body.drop (c + take)) false) (soloHeld total body c)
        (body.take (c + take)).zipIdx 1 (3 * (body.length - (c + take)) + 6)
  | releasing : Stage (.releasing 0 none) (soloHeld total body body.length) body.zipIdx 1 3
  | back : Stage .top (soloDone total) body.zipIdx 1 2
  | last : Stage .asking (soloDone total) body.zipIdx 1 1
  | exited : Stage (.exited .exhausted) (soloDone total) body.zipIdx 1 0

end Stages

variable {ctx : WorkerCtx} {body : List UInt8} {total : Option ℕ}

theorem request_soloFresh :
    (soloFresh total body).request =
      (soloHeld total body 0, .claim ⟨0, 0, body.length, true⟩) := by
  simp [soloFresh, soloHeld, Plan.request, Plan.pushSlot, maxByKey]

theorem request_soloDone : (soloDone total).request = (soloDone total, .exhausted) := rfl

theorem slot?_soloHeld (c : ℕ) :
    (soloHeld total body c).slot? 0 = some ⟨0, c, body.length, true⟩ := rfl

theorem advance_soloHeld (c n : ℕ) :
    (soloHeld total body c).modifySlot 0 (ClaimSlot.advance n) = soloHeld total body (c + n) := rfl

theorem release_soloHeld : (soloHeld total body body.length).release 0 = soloDone total := by
  simp [soloHeld, soloDone, Plan.release, Plan.modifySlot, Plan.slot?, ClaimSlot.deactivate]

theorem handed_append (sent : List (ℕ × List UInt8)) (m : ℕ × List UInt8) :
    handed (sent ++ [m]) = handed sent ++ m.2.zipIdx m.1 := by
  simp [handed]

theorem take_add_zipIdx {c : ℕ} (hc : c ≤ body.length) (n : ℕ) :
    (body.take (c + n)).zipIdx = (body.take c).zipIdx ++ ((body.drop c).take n).zipIdx c := by
  rw [List.take_add, List.zipIdx_append, List.length_take, Nat.zero_add, min_eq_left hc]

/-- What a proper server sends in answer to a request that it can satisfy passes the checks. -/
theorem verify_of_serves {start stop : ℕ} {r : Response}
    (hr : serves body ctx.useRange start stop r = true) (hstart : start < body.length)
    (htotal : ctx.total = none ∨ ctx.total = some body.length) :
    ctx.verify start (some r) =
      .ok (if ctx.useRange then (body.drop start).take (stop - start) else body) := by
  unfold serves at hr
  cases hrange : ctx.useRange with
  | false =>
    rw [hrange, if_neg Bool.false_ne_true] at hr
    obtain ⟨hstatus, htrans, hbody⟩ := of_decide_eq_true hr
    exact WorkerCtx.verify_eq_ok.2 ⟨r, rfl, hbody.symm, by simp [Response.success, hstatus], htrans,
      fun hu => by rw [hrange] at hu; cases hu⟩
  | true =>
    rw [hrange, if_pos rfl, if_pos hstart, Bool.and_eq_true, Option.any_eq_true] at hr
    obtain ⟨hhead, cr, hcr, hrange'⟩ := hr
    obtain ⟨hstatus, htrans, hbody⟩ := of_decide_eq_true hhead
    obtain ⟨hfirst, -, hstated⟩ := of_decide_eq_true hrange'
    have hsame : cr.sizeChanged ctx.total = false := by
      refine ContentRange.sizeChanged_eq_false.2 fun n hn t ht => ?_
      rcases hstated with h | h <;> rcases htotal with h' | h' <;> simp_all
    exact WorkerCtx.verify_eq_ok.2 ⟨r, rfl, hbody.symm, by simp [Response.success, hstatus], htrans,
      fun _ => ⟨hstatus, cr, hcr, hfirst, hsame⟩⟩

theorem exists_serves {stop : ℕ} (hbody : body ≠ []) (hstop : 0 < stop) (ranged : Bool) :
    ∃ r, serves body ranged 0 stop r = true := by
  have hlen : 0 < body.length := List.length_pos_iff.2 hbody
  cases ranged with
  | false => exact ⟨{ status := 200, body := body }, by simp [serves]⟩
  | true =>
    have hpos : 0 < min stop body.length := lt_min hstop hlen
    let cr : ContentRange := ⟨0, min stop body.length - 1, none, Nat.zero_le _, nofun⟩
    refine ⟨{ status := 206, body := body.take stop, contentRange := some cr }, ?_⟩
    simp [serves, cr, hlen, Nat.sub_add_cancel hpos]

theorem Stage.of_eq {phase : WorkerPhase} {plan : Plan} {out out' : List (UInt8 × ℕ)}
    {requests k : ℕ} (h : Stage total body phase plan out requests k) (hout : out' = out) :
    Stage total body phase plan out' requests k := hout ▸ h

/-- Every step of such a run leads to a later stage. -/
theorem Stage.step {sh sh' : Shared} {w w' : Worker} {e : WorkerEvent} {k : ℕ} (hbody : body ≠ [])
    (htotal : ctx.total = none ∨ ctx.total = some body.length)
    (h : Stage total body w.phase sh.plan (handed sh.sent) w.requests k)
    (he : honest body ctx w e = true) (hst : w.step ctx false false sh e = some (sh', w')) :
    ∃ k' < k, Stage total body w'.phase sh'.plan (handed sh'.sent) w'.requests k' := by
  obtain ⟨phase, bytes, requests, retries⟩ := w
  obtain ⟨plan, errors, sent⟩ := sh
  have hlen : 0 < body.length := List.length_pos_iff.2 hbody
  dsimp only at h
  generalize hsent : handed sent = out at h
  cases h with
  | starting =>
    cases e with
    | build ok =>
      obtain rfl : ok = true := he
      obtain ⟨rfl, rfl⟩ := Prod.mk.inj (Option.some.inj hst)
      exact ⟨_, by omega, Stage.top.of_eq hsent⟩
    | _ => cases hst
  | top =>
    cases e with
    | check =>
      obtain ⟨rfl, rfl⟩ := Prod.mk.inj (Option.some.inj hst)
      exact ⟨_, by omega, Stage.asking.of_eq hsent⟩
    | _ => cases hst
  | asking =>
    cases e with
    | request =>
      simp only [Worker.step, request_soloFresh] at hst
      obtain ⟨rfl, rfl⟩ := Prod.mk.inj (Option.some.inj hst)
      exact ⟨_, by omega, Stage.fetching.of_eq hsent⟩
    | _ => cases hst
  | fetching =>
    cases e with
    | connect =>
      have hopen : ClaimSlot.isDone ⟨0, 0, body.length, true⟩ = false :=
        decide_eq_false (Nat.not_le.2 hlen)
      simp only [Worker.step, slot?_soloHeld, Option.map_some, hopen] at hst
      obtain ⟨rfl, rfl⟩ := Prod.mk.inj (Option.some.inj hst)
      exact ⟨_, by omega, Stage.connecting.of_eq hsent⟩
    | _ => cases hst
  | connecting =>
    cases e with
    | respond r =>
      obtain ⟨resp, rfl, hserve⟩ := (Option.any_eq_true _ _).1 he
      have hverify := verify_of_serves hserve hlen htotal
      have hwhole :
          (if ctx.useRange then (body.drop 0).take (body.length - 0) else body) = body := by
        split_ifs <;> simp
      rw [hwhole] at hverify
      simp only [Worker.step, hverify] at hst
      obtain ⟨rfl, rfl⟩ := Prod.mk.inj (Option.some.inj hst)
      exact ⟨_, by omega, (Stage.streaming (Nat.zero_le _)).of_eq hsent⟩
    | _ => cases hst
  | streaming hc =>
    cases e with
    | proceed =>
      obtain ⟨rfl, rfl⟩ := Prod.mk.inj (Option.some.inj hst)
      exact ⟨_, by omega, (Stage.reading hc).of_eq hsent⟩
    | _ => cases hst
  | @reading c hc =>
    cases e with
    | poll p =>
      cases p with
      | timeout => cases he
      | broken => cases he
      | ended =>
        -- the body is over, and so is the claim
        have hempty : body.drop c = [] := List.isEmpty_iff.1 he
        obtain rfl : c = body.length := by
          have := List.drop_eq_nil_iff.1 hempty
          omega
        simp only [Worker.step, slot?_soloHeld, Option.map_some, Worker.endBody, lt_irrefl,
          false_and, and_false, if_false] at hst
        obtain ⟨rfl, rfl⟩ := Prod.mk.inj (Option.some.inj hst)
        rw [List.take_length] at hsent
        exact ⟨_, by omega, Stage.releasing.of_eq hsent⟩
      | chunk n writerGone =>
        obtain ⟨hn, hgone⟩ := Bool.and_eq_true_iff.1 he
        have hn : 0 < n := of_decide_eq_true hn
        obtain rfl : writerGone = false := by simpa using hgone
        simp only [Worker.step, slot?_soloHeld, Option.map_some, List.length_drop] at hst
        split_ifs at hst with hle
        have hmore : ¬body.length ≤ c := by omega
        have htake : min (body.length - c) n = n := by omega
        simp only [Worker.takeChunk, if_neg hmore, Bool.false_eq_true, if_false, htake,
          lt_irrefl, decide_false, List.drop_drop] at hst
        obtain ⟨rfl, rfl⟩ := Prod.mk.inj (Option.some.inj hst)
        refine ⟨_, ?_, (Stage.handing (by omega : c + n ≤ body.length)).of_eq ?_⟩
        · omega
        · rw [handed_append, hsent, take_add_zipIdx hc]
    | _ => cases hst
  | @handing c take hc =>
    cases e with
    | advance =>
      simp only [Worker.step, slot?_soloHeld, Option.map_some, Bool.false_eq_true, if_false,
        advance_soloHeld] at hst
      obtain ⟨rfl, rfl⟩ := Prod.mk.inj (Option.some.inj hst)
      exact ⟨_, by omega, (Stage.streaming hc).of_eq hsent⟩
    | _ => cases hst
  | releasing =>
    cases e with
    | release =>
      obtain ⟨rfl, rfl⟩ := Prod.mk.inj (Option.some.inj hst)
      rw [release_soloHeld]
      exact ⟨_, by omega, Stage.back.of_eq hsent⟩
    | _ => cases hst
  | back =>
    cases e with
    | check =>
      obtain ⟨rfl, rfl⟩ := Prod.mk.inj (Option.some.inj hst)
      exact ⟨_, by omega, Stage.last.of_eq hsent⟩
    | _ => cases hst
  | last =>
    cases e with
    | request =>
      simp only [Worker.step, request_soloDone] at hst
      obtain ⟨rfl, rfl⟩ := Prod.mk.inj (Option.some.inj hst)
      exact ⟨_, by omega, Stage.exited.of_eq hsent⟩
    | _ => cases hst
  | exited => cases e <;> cases hst

/-- A run that has not ended can go on. -/
theorem Stage.exists_step {sh : Shared} {w : Worker} {out : List (UInt8 × ℕ)} {k : ℕ}
    (hbody : body ≠ []) (htotal : ctx.total = none ∨ ctx.total = some body.length)
    (h : Stage total body w.phase sh.plan out w.requests k) (hne : w.phase ≠ .exited .exhausted) :
    ∃ e r, honest body ctx w e = true ∧ w.step ctx false false sh e = some r := by
  obtain ⟨phase, bytes, requests, retries⟩ := w
  obtain ⟨plan, errors, sent⟩ := sh
  have hlen : 0 < body.length := List.length_pos_iff.2 hbody
  dsimp only at h hne
  cases h with
  | starting => exact ⟨.build true, _, rfl, rfl⟩
  | top => exact ⟨.check, _, rfl, rfl⟩
  | asking => exact ⟨.request, _, rfl, by simp only [Worker.step, request_soloFresh]; rfl⟩
  | fetching => exact ⟨.connect, _, rfl, rfl⟩
  | connecting =>
    obtain ⟨r, hr⟩ := exists_serves hbody hlen ctx.useRange
    have hverify := verify_of_serves hr hlen htotal
    exact ⟨.respond (some r), _, hr, by simp only [Worker.step, hverify]; rfl⟩
  | streaming hc => exact ⟨.proceed, _, rfl, rfl⟩
  | @reading c hc =>
    rcases Nat.eq_zero_or_pos (body.drop c).length with hzero | hpos
    · exact ⟨.poll .ended, _, List.isEmpty_iff_length_eq_zero.2 hzero, rfl⟩
    · exact ⟨.poll (.chunk (body.drop c).length false), _, by simpa [honest] using hpos,
        (if_pos le_rfl).trans rfl⟩
  | handing hc => exact ⟨.advance, _, rfl, rfl⟩
  | releasing => exact ⟨.release, _, rfl, rfl⟩
  | back => exact ⟨.check, _, rfl, rfl⟩
  | last => exact ⟨.request, _, rfl, rfl⟩
  | exited => exact absurd rfl hne

theorem Stage.of_exited {plan : Plan} {out : List (UInt8 × ℕ)} {requests k : ℕ}
    (h : Stage total body (.exited .exhausted) plan out requests k) :
    requests = 1 ∧ out = body.zipIdx := by
  cases h
  exact ⟨rfl, rfl⟩

theorem new_eq_soloFresh (hbody : body ≠ [])
    (htotal : ctx.total = some body.length ∨ ctx.total = none ∧ body.length = u64Max) :
    Plan.new ctx.total .new = soloFresh ctx.total body := by
  have hlen : 0 < body.length := List.length_pos_iff.2 hbody
  rcases htotal with h | ⟨h, hmax⟩
  · rw [h]
    simp [Plan.new, soloFresh, RangeSet.gapsIn, RangeSet.new, RangeSet.gapsFrom, hlen, hbody]
  · rw [h, soloFresh, hmax]
    rfl

theorem finishes_of_eq (hbody : body ≠ [])
    (htotal : ctx.total = some body.length ∨ ctx.total = none ∧ body.length = u64Max) :
    Finishes ctx body := by
  have hstated : ctx.total = none ∨ ctx.total = some body.length :=
    htotal.elim .inr fun h => .inl h.1
  refine ⟨3 * body.length + 10, Machine.EndsWithin.of_rank (I := fun k s =>
    Stage ctx.total body s.2.phase s.1.plan (handed s.1.sent) s.2.requests k) ?_ ?_ ?_⟩
  · rintro k ⟨sh, w⟩ e ⟨sh', w'⟩ h he hst
    exact h.step hbody hstated he hst
  · rintro k ⟨sh, w⟩ h hstuck
    by_cases hexit : w.phase = .exited .exhausted
    · rw [hexit] at h
      obtain ⟨hrequests, hout⟩ := h.of_exited
      exact ⟨hrequests.trans_le (by omega), hexit, .of_eq hout⟩
    · obtain ⟨e, r, he, hst⟩ := h.exists_step hbody hstated hexit
      exact absurd hst (hstuck e r he)
  · rw [soloStart, new_eq_soloFresh hbody htotal]
    exact .starting

/-! ### Plans of unknown size -/

/-- A plan of unknown size with one gap. -/
def wideFree (first len id : ℕ) : Plan := ⟨none, [(first, len)], [], id⟩

/-- A plan of unknown size with one claim. -/
def wideHeld (cursor stop id : ℕ) : Plan := ⟨none, [], [⟨id, cursor, stop, true⟩], id + 1⟩

theorem request_wideFree (first len id : ℕ) : (wideFree first len id).request =
    (wideHeld first (first + len) id, .claim ⟨id, first, first + len, true⟩) := by
  simp [wideFree, wideHeld, Plan.request, Plan.pushSlot, maxByKey]

theorem slot?_wideHeld (cursor stop id : ℕ) :
    (wideHeld cursor stop id).slot? id = some ⟨id, cursor, stop, true⟩ := by
  simp [wideHeld, Plan.slot?]

theorem advance_wideHeld (cursor stop id n : ℕ) :
    (wideHeld cursor stop id).modifySlot id (ClaimSlot.advance n) =
      wideHeld (cursor + n) stop id := by
  simp [wideHeld, Plan.modifySlot, ClaimSlot.advance]

theorem release_wideHeld {cursor stop : ℕ} (h : cursor < stop) (id : ℕ) :
    (wideHeld cursor stop id).release id = wideFree cursor (stop - cursor) (id + 1) := by
  simp [wideHeld, wideFree, Plan.release, Plan.modifySlot, Plan.slot?, ClaimSlot.deactivate, h,
    sortByStart, mergeFree, mergeFreeFrom]

theorem release_wideHeld_done (stop id : ℕ) :
    (wideHeld stop stop id).release id = ⟨none, [], [], id + 1⟩ := by
  simp [wideHeld, Plan.release, Plan.modifySlot, Plan.slot?, ClaimSlot.deactivate]

/-- One claim of a plan of unknown size, up to where the body is with the writer. -/
theorem solo_claim {first len id errors bytes requests retries : ℕ}
    {sent : List (ℕ × List UInt8)} {r : Response} {d : List UInt8} (hlen : 0 < len)
    (hserve : serves body ctx.useRange first (first + len) r = true)
    (hverify : ctx.verify first (some r) = .ok d) (hd : 0 < d.length) :
    (soloMachine ctx).execUnder (Honest ctx body)
        (⟨wideFree first len id, errors, sent⟩, ⟨.top, bytes, requests, retries⟩)
        [.check, .request, .connect, .respond (some r), .proceed,
          .poll (.chunk d.length false)] =
      some (⟨wideHeld first (first + len) id, errors,
          sent ++ [(first, d.take (min len d.length))]⟩,
        ⟨.handing id 0 (min len d.length) [] (decide (len < d.length)), bytes, requests + 1,
          retries⟩) := by
  have hask : (soloMachine ctx).execUnder (Honest ctx body)
      (⟨wideFree first len id, errors, sent⟩, ⟨.top, bytes, requests, retries⟩)
      [.check, .request, .connect] = some (⟨wideHeld first (first + len) id, errors, sent⟩,
        ⟨.connecting id 0 first (first + len), bytes, requests + 1, retries⟩) := by
    simp [Machine.execUnder, soloMachine, Honest, honest, Worker.step, request_wideFree,
      slot?_wideHeld, ClaimSlot.isDone, Nat.ne_of_gt hlen]
  have hread : (soloMachine ctx).execUnder (Honest ctx body)
      (⟨wideHeld first (first + len) id, errors, sent⟩,
        ⟨.connecting id 0 first (first + len), bytes, requests + 1, retries⟩)
      [.respond (some r), .proceed] = some (⟨wideHeld first (first + len) id, errors, sent⟩,
        ⟨.reading id 0 d, bytes, requests + 1, retries⟩) := by
    simp [Machine.execUnder, soloMachine, Honest, honest, Worker.step, hserve, hverify]
  refine Machine.execUnder_append (Machine.execUnder_append hask hread) ?_
  simp [Machine.execUnder, soloMachine, Honest, honest, Worker.step, slot?_wideHeld, hd,
    Worker.takeChunk, Nat.ne_of_gt hlen]

/-- What the server sends in answer to the first request of a download of unknown size. -/
def firstBody (ctx : WorkerCtx) (body : List UInt8) : List UInt8 :=
  if ctx.useRange then body.take u64Max else body

theorem take_firstBody :
    (firstBody ctx body).take (min u64Max (firstBody ctx body).length) = body.take u64Max := by
  rw [← List.take_eq_take_min]
  unfold firstBody
  split_ifs
  · rw [List.take_take, min_self]
  · rfl

theorem solo_first (hbody : body ≠ []) (htotal : ctx.total = none) :
    ∃ es, (soloMachine ctx).execUnder (Honest ctx body) (soloStart ctx) es =
      some (⟨wideHeld 0 (0 + u64Max) 0, 0, [(0, body.take u64Max)]⟩,
        ⟨.handing 0 0 (min u64Max (firstBody ctx body).length) []
          (decide (u64Max < (firstBody ctx body).length)), 0, 1, 0⟩) := by
  have hlen : 0 < body.length := List.length_pos_iff.2 hbody
  have hmax : 0 < 0 + u64Max := by decide
  obtain ⟨r, hr⟩ := exists_serves hbody hmax ctx.useRange
  have hverify : ctx.verify 0 (some r) = .ok (firstBody ctx body) :=
    verify_of_serves hr hlen (.inl htotal)
  have hfirst : 0 < (firstBody ctx body).length := by
    unfold firstBody
    split_ifs
    · rw [List.length_take]
      exact lt_min (by decide) hlen
    · exact hlen
  have hstart : soloStart ctx = (⟨wideFree 0 u64Max 0, 0, []⟩, .new) := by
    rw [soloStart, htotal]
    rfl
  have hbuild : (soloMachine ctx).execUnder (Honest ctx body)
      (soloStart ctx) [.build true] =
        some (⟨wideFree 0 u64Max 0, 0, []⟩, ⟨.top, 0, 0, 0⟩) := by
    rw [hstart]
    rfl
  refine ⟨_, Machine.execUnder_append hbuild
    ((solo_claim (by decide) hr hverify hfirst).trans ?_)⟩
  rw [take_firstBody]
  rfl

/-- The claim does not end where a shorter body does. -/
theorem solo_first_short (hbody : body ≠ []) (htotal : ctx.total = none)
    (hlt : body.length < u64Max) :
    ∃ es, (soloMachine ctx).execUnder (Honest ctx body) (soloStart ctx) es =
      some (⟨wideHeld 0 (0 + u64Max) 0, 0, [(0, body)]⟩,
        ⟨.handing 0 0 body.length [] false, 0, 1, 0⟩) := by
  obtain ⟨es, hfirst⟩ := solo_first hbody htotal
  have hwhole : firstBody ctx body = body := by
    unfold firstBody
    rw [List.take_of_length_le hlt.le, ite_self]
  rw [hwhole, min_eq_right hlt.le, decide_eq_false (by omega),
    List.take_of_length_le hlt.le] at hfirst
  exact ⟨es, hfirst⟩

theorem solo_ended (n : ℕ) (sent : List (ℕ × List UInt8)) :
    (soloMachine ctx).execUnder (Honest ctx body)
      (⟨wideHeld 0 (0 + u64Max) 0, 0, sent⟩, ⟨.handing 0 0 n [] false, 0, 1, 0⟩)
      [.advance, .proceed, .poll .ended] =
        some ((⟨.reading 0 0 [], n, 1, 0⟩ : Worker).endBody ctx false ⟨0, n, u64Max, true⟩ 0
          ⟨wideHeld n u64Max 0, 0, sent⟩) := by
  simp [Machine.execUnder, soloMachine, Honest, honest, Worker.step, slot?_wideHeld,
    advance_wideHeld]

theorem solo_drained (n requests : ℕ) (sent : List (ℕ × List UInt8)) :
    (soloMachine ctx).execUnder (Honest ctx body)
      (⟨wideHeld u64Max u64Max 0, 0, sent⟩, ⟨.releasing 0 none, n, requests, 0⟩)
      [.release, .check, .request] =
        some (⟨⟨none, [], [], 1⟩, 0, sent⟩, ⟨.exited .exhausted, n, requests, 0⟩) := by
  simp [Machine.execUnder, soloMachine, Honest, honest, Worker.step, release_wideHeld_done]
  rfl

/-! ### Runs that end badly -/

theorem stuck_of_exited {s : Shared × Worker} {exit : WorkerExit} (h : s.2.phase = .exited exit) :
    (soloMachine ctx).Stuck (Honest ctx body) s := by
  intro e s' _ hst
  simp only [soloMachine] at hst
  cases e <;> simp [Worker.step, h] at hst

theorem mem_handed_of_reaches {s s' : Shared × Worker}
    (h : (soloMachine ctx).ReachesUnder (Honest ctx body) s s') {x : UInt8 × ℕ}
    (hx : x ∈ handed s.1.sent) : x ∈ handed s'.1.sent := by
  induction h with
  | refl => exact hx
  | @tail t t' e _ _ hst ih =>
    have hkept : ∀ m, handed t.1.sent ⊆ handed (t.1.sent ++ [m]) := fun m y hy => by
      rw [handed_append]
      exact List.mem_append_left _ hy
    cases Worker.effect_of_step hst with
    | still _ hsent => rwa [hsent]
    | claim _ _ hsent => rwa [hsent]
    | hand _ _ _ _ hsent => rw [hsent]; exact hkept _ ih
    | advance _ _ _ hsent => rwa [hsent]
    | release _ _ hsent => rwa [hsent]

theorem not_finishes_of_mem {es : List WorkerEvent} {s : Shared × Worker}
    (h : (soloMachine ctx).execUnder (Honest ctx body) (soloStart ctx) es = some s)
    {x : UInt8 × ℕ} (hx : x ∈ handed s.1.sent) (hout : body.length ≤ x.2) : ¬Finishes ctx body := by
  rintro ⟨bound, hends⟩
  obtain ⟨s', hr, -, -, -, hperm⟩ := hends.exists_end h
  have hmem := hperm.mem_iff.1 (mem_handed_of_reaches hr hx)
  have := (List.mem_zipIdx hmem).2.1
  omega

theorem not_finishes_of_failed {es : List WorkerEvent} {s : Shared × Worker} {error : ErrorClass}
    (h : (soloMachine ctx).execUnder (Honest ctx body) (soloStart ctx) es = some s)
    (hs : s.2.phase = .exited (.failed error)) : ¬Finishes ctx body := by
  rintro ⟨bound, hends⟩
  obtain ⟨-, hexit, -⟩ := (hends es s h).2 (stuck_of_exited hs)
  rw [hs] at hexit
  cases hexit

theorem not_finishes_of_short {es : List WorkerEvent} {s : Shared × Worker} {exit : WorkerExit}
    (h : (soloMachine ctx).execUnder (Honest ctx body) (soloStart ctx) es = some s)
    (hs : s.2.phase = .exited exit) (hlen : (handed s.1.sent).length ≠ body.length) :
    ¬Finishes ctx body := by
  rintro ⟨bound, hends⟩
  obtain ⟨-, -, hperm⟩ := (hends es s h).2 (stuck_of_exited hs)
  exact hlen (hperm.length_eq.trans List.length_zipIdx)

/-- Without ranges, what is left of the claim is requested again, and the body comes again. -/
theorem not_finishes_of_plain (hbody : body ≠ []) (htotal : ctx.total = none)
    (hrange : ctx.useRange = false) (hlt : body.length < u64Max) : ¬Finishes ctx body := by
  have hlen : 0 < body.length := List.length_pos_iff.2 hbody
  obtain ⟨es, hfirst⟩ := solo_first_short hbody htotal hlt
  have hended : (soloMachine ctx).execUnder (Honest ctx body) _ _ = _ :=
    solo_ended body.length [(0, body)]
  rw [Worker.endBody, if_neg (by simp [hrange])] at hended
  have hback : (soloMachine ctx).execUnder (Honest ctx body)
      (⟨wideHeld body.length u64Max 0, 0, [(0, body)]⟩, ⟨.releasing 0 none, body.length, 1, 0⟩)
      [.release] = some (⟨wideFree body.length (u64Max - body.length) 1, 0, [(0, body)]⟩,
        ⟨.top, body.length, 1, 0⟩) := by
    simp [Machine.execUnder, soloMachine, Honest, honest, Worker.step, release_wideHeld hlt]
  have hserve : serves body ctx.useRange body.length (body.length + (u64Max - body.length))
      { status := 200, body := body } = true := by simp [serves, hrange]
  have hverify : ctx.verify body.length (some { status := 200, body := body }) = .ok body := by
    simp [WorkerCtx.verify, Response.success, hrange]
  have hagain := Machine.execUnder_append
    (Machine.execUnder_append (Machine.execUnder_append hfirst hended) hback)
    (solo_claim (by omega) hserve hverify hlen)
  -- the first byte of the second copy lies past the end
  obtain ⟨b, rest, rfl⟩ := List.exists_cons_of_ne_nil hbody
  refine not_finishes_of_mem (x := (b, (b :: rest).length)) hagain ?_ le_rfl
  obtain ⟨k, hk⟩ : ∃ k, min (u64Max - (b :: rest).length) (b :: rest).length = k + 1 :=
    Nat.exists_eq_succ_of_ne_zero (by omega)
  rw [handed_append, hk]
  exact List.mem_append_right _ List.mem_cons_self

/-- With ranges, what is left of the claim is past the end. -/
theorem not_finishes_of_ranged (hbody : body ≠ []) (htotal : ctx.total = none)
    (hrange : ctx.useRange = true) (hlt : body.length < u64Max) : ¬Finishes ctx body := by
  obtain ⟨es, hfirst⟩ := solo_first_short hbody htotal hlt
  have hended : (soloMachine ctx).execUnder (Honest ctx body) _ _ = _ :=
    solo_ended body.length [(0, body)]
  rw [Worker.endBody, if_pos ⟨hrange, hlt, rfl⟩] at hended
  have hopen : ¬u64Max ≤ body.length := by omega
  by_cases hretry : ctx.maxRetries = 0
  · rw [Worker.fail, if_pos (.inr hretry.le)] at hended
    have hend : (soloMachine ctx).execUnder (Honest ctx body)
        (⟨wideHeld body.length u64Max 0, 1, [(0, body)]⟩,
          ⟨.releasing 0 (some (.failed .transientNetwork)), body.length, 1, 0⟩) [.release] =
          some (⟨wideFree body.length (u64Max - body.length) 1, 1, [(0, body)]⟩,
            ⟨.exited (.failed .transientNetwork), body.length, 1, 0⟩) := by
      simp [Machine.execUnder, soloMachine, Honest, honest, Worker.step, release_wideHeld hlt]
    exact not_finishes_of_failed
      (Machine.execUnder_append (Machine.execUnder_append hfirst hended) hend) rfl
  · have hmore : ¬(ErrorClass.transientNetwork.isRetryable = false ∨ ctx.maxRetries ≤ 0) := by
      rintro (hfinal | hnone)
      · cases hfinal
      · omega
    rw [Worker.fail, if_neg hmore] at hended
    -- the retry asks for bytes past the end
    have hask : (soloMachine ctx).execUnder (Honest ctx body)
        (⟨wideHeld body.length u64Max 0, 1, [(0, body)]⟩, ⟨.waiting 0 1, body.length, 1, 1⟩)
        [.wake, .connect] = some (⟨wideHeld body.length u64Max 0, 1, [(0, body)]⟩,
          ⟨.connecting 0 1 body.length u64Max, body.length, 2, 1⟩) := by
      simp [Machine.execUnder, soloMachine, Honest, honest, Worker.step, slot?_wideHeld,
        ClaimSlot.isDone, hlt]
    have hverify : ctx.verify body.length (some { status := 416, body := [] }) =
        .error .resourceChanged := by
      simp [WorkerCtx.verify, Response.success, classifyStatus]
    have hend : (soloMachine ctx).execUnder (Honest ctx body)
        (⟨wideHeld body.length u64Max 0, 1, [(0, body)]⟩,
          ⟨.connecting 0 1 body.length u64Max, body.length, 2, 1⟩)
        [.respond (some { status := 416, body := [] }), .release] =
          some (⟨wideFree body.length (u64Max - body.length) 1, 2, [(0, body)]⟩,
            ⟨.exited (.failed .resourceChanged), body.length, 2, 1⟩) := by
      simp [Machine.execUnder, soloMachine, Honest, honest, Worker.step, serves, hrange, hverify,
        Worker.fail, ErrorClass.isRetryable, release_wideHeld hlt]
    exact not_finishes_of_failed (Machine.execUnder_append
      (Machine.execUnder_append (Machine.execUnder_append hfirst hended) hask) hend) rfl

theorem not_finishes_of_long (htotal : ctx.total = none) (hlt : u64Max < body.length) :
    ¬Finishes ctx body := by
  have hbody : body ≠ [] := List.ne_nil_of_length_pos (by omega)
  obtain ⟨es, hfirst⟩ := solo_first hbody htotal
  have hcut : (handed [(0, body.take u64Max)]).length ≠ body.length := by
    simp [handed]
    omega
  cases hrange : ctx.useRange with
  | false =>
    have hwhole : firstBody ctx body = body := by simp [firstBody, hrange]
    rw [hwhole, min_eq_left hlt.le, decide_eq_true hlt] at hfirst
    have hlast : (soloMachine ctx).execUnder (Honest ctx body)
        (⟨wideHeld 0 (0 + u64Max) 0, 0, [(0, body.take u64Max)]⟩,
          ⟨.handing 0 0 u64Max [] true, 0, 1, 0⟩) [.advance] =
          some (⟨wideHeld u64Max u64Max 0, 0, [(0, body.take u64Max)]⟩,
            ⟨.releasing 0 none, u64Max, 1, 0⟩) := by
      simp [Machine.execUnder, soloMachine, Honest, honest, Worker.step, slot?_wideHeld,
        advance_wideHeld, Worker.endBody, hrange, ClaimSlot.advance]
    exact not_finishes_of_short (Machine.execUnder_append (Machine.execUnder_append hfirst hlast)
      (solo_drained u64Max 1 _)) rfl hcut
  | true =>
    have hwhole : (firstBody ctx body).length = u64Max := by
      simp [firstBody, hrange, hlt.le]
    rw [hwhole, min_self, decide_eq_false (by omega)] at hfirst
    have hended : (soloMachine ctx).execUnder (Honest ctx body) _ _ = _ :=
      solo_ended u64Max [(0, body.take u64Max)]
    rw [Worker.endBody, if_neg (by simp)] at hended
    exact not_finishes_of_short (Machine.execUnder_append (Machine.execUnder_append hfirst hended)
      (solo_drained u64Max 1 _)) rfl hcut

/-- **A worker on its own finishes exactly when the size is known**, or the body has as many bytes
as an unknown size is taken for. -/
theorem solo_finishes_iff (ctx : WorkerCtx) (body : List UInt8) (hbody : body ≠ [])
    (htotal : ctx.total = none ∨ ctx.total = some body.length) :
    Finishes ctx body ↔ ctx.total = some body.length ∨ body.length = u64Max := by
  constructor
  · intro hfin
    by_contra hcond
    obtain ⟨hsize, hmax⟩ := not_or.1 hcond
    have hnone : ctx.total = none := htotal.resolve_right hsize
    rcases Nat.lt_or_gt_of_ne hmax with hlt | hlt
    · cases hrange : ctx.useRange with
      | false => exact not_finishes_of_plain hbody hnone hrange hlt hfin
      | true => exact not_finishes_of_ranged hbody hnone hrange hlt hfin
    · exact not_finishes_of_long hnone hlt hfin
  · rintro (hsize | hmax)
    · exact finishes_of_eq hbody (.inl hsize)
    · exact finishes_of_eq hbody (htotal.symm.imp_right fun hnone => ⟨hnone, hmax⟩)

/-- A body of one byte and known size. -/
theorem solo_finishes_byte :
    Finishes ⟨.unsupported, some 1, 8⟩ [7] ↔
      (⟨.unsupported, some 1, 8⟩ : WorkerCtx).total = some ([7] : List UInt8).length ∨
        ([7] : List UInt8).length = u64Max :=
  solo_finishes_iff ⟨.unsupported, some 1, 8⟩ [7] (by decide) (.inr rfl)

/-- A body of one byte and unknown size is requested again. -/
theorem solo_unknown_size :
    ¬∀ (ctx : WorkerCtx) (body : List UInt8), body ≠ [] →
      (ctx.total = none ∨ ctx.total = some body.length) → Finishes ctx body := fun h =>
  not_finishes_of_plain (by decide) rfl rfl (by decide)
    (h ⟨.unsupported, none, 8⟩ [7] (by decide) (.inl rfl))

end SwiftLoad
