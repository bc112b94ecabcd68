import Mathlib.Algebra.Order.BigOperators.Group.List
import SwiftLoad.Task.Download
import SwiftLoad.Task.Identity
import SwiftLoad.Task.Progress

/-!
# Where credentials go

The requests that go out for one URL: those of the probe, those of the workers of the download and
those of a validation.  The probe strips the credentials of the caller when a redirect leaves the
origin; the workers and the validation send them to the URL that the probe ended on.

* `Issues` : the requests that can go out.
* `credentials_stay_iff` : **when no request to another origin carries the credentials.**
-/

namespace SwiftLoad

open Ranges

/-- The request of `stream_once` for the bytes `[start, stop)`. -/
def streamRequest (ctx : WorkerCtx) (client : Client) (spec : RequestSpec) (url : Url)
    (start stop : ℕ) : Request where
  client := client
  url := url
  headers := applySpec spec ++ if ctx.useRange then [rangeHeader start (stop - 1)] else []

/-- The requests of the workers that are out. -/
def Drive.requests (ctx : WorkerCtx) (client : Client) (spec : RequestSpec) (url : Url)
    (s : Drive) : List Request :=
  s.workers.filterMap fun w => match w.phase with
    | .connecting _ _ start stop => some (streamRequest ctx client spec url start stop)
    | _ => none

section

variable (lib : UrlLib) (net : Net) (naming : Naming) (settings : Settings) (spec : RequestSpec)
  (raw : String)

/-- The requests that a probe, a download or a validation of a URL can send. -/
inductive Issues : Request → Prop
  | probe (worked : Bool) {x : Exchange}
      (h : x ∈ ((SwiftLoad.probe lib net naming settings spec worked raw).runFrom []).2) :
      Issues x.request
  | worker {pr : ProbeDetails}
      (hpr : ((SwiftLoad.probe lib net naming settings spec false raw).runFrom []).1 = .ok pr)
      {req : DownloadRequest} (hc : req.completed.Ordered) {available : ℕ}
      {existing : Option File} {p : Prepared}
      (hp : prepare settings req pr.toProbeResult available existing = .ok p) (now : Nanos)
      {d : Drive} (hd : (driveMachine p.cfg).Reaches (p.start now) d) {client : Client}
      (hclient : Client.build net settings spec pr.finalUrl = .ok client) {r : Request}
      (hr : r ∈ d.requests p.cfg.ctx client spec pr.finalUrl) : Issues r
  | window (digest : List UInt8 → List UInt8) (part : PartFile) (old : ResourceSignals)
      (completed : RangeSet) (downloadId : String) {x : Exchange}
      (h : x ∈ ((validateReplacementUrl lib net naming settings spec digest part raw old completed
        downloadId).runFrom []).2) : Issues x.request

end

/-- There is nothing to request from here: no bytes, or more than a file can hold, and no windows
without ranges. -/
def ProbeDetails.nothingToFetch (pr : ProbeDetails) : Bool :=
  decide (pr.rangeSupport ≠ .supported) &&
    pr.totalSize.any fun total => decide (total = 0 ∨ maxFileLen < total)

theorem ProbeDetails.nothingToFetch_iff {pr : ProbeDetails} :
    pr.nothingToFetch = true ↔ pr.rangeSupport ≠ .supported ∧
      ∃ total, pr.totalSize = some total ∧ (total = 0 ∨ maxFileLen < total) := by
  simp [nothingToFetch, Option.any_eq_true]

variable {lib : UrlLib} {net : Net} {naming : Naming} {settings : Settings} {spec : RequestSpec}
  {raw : String} {origin start url : Url} {client : Client}

/-! ### What a request carries -/

theorem credentialed_append (l l' : List (String × String)) :
    ((l ++ l').any fun h => isCredential h.1) =
      ((l.any fun h => isCredential h.1) || l'.any fun h => isCredential h.1) := List.any_append

theorem not_credential_range (first last : ℕ) :
    isCredential (rangeHeader first last).1 = false := by
  change isCredential "range" = false
  decide

/-- Away from the origin the probe strips the credentials. -/
theorem credentialed_probeRequest (h : isCrossOrigin origin url = true) :
    (probeRequest client spec origin url).credentialed = false := by
  have hstrip : ((stripAuth spec.headers).any fun h => isCredential h.1) = false := by
    rw [List.any_eq_false]
    intro x hx
    simpa using (List.mem_filter.1 hx).2
  simp only [probeRequest, Request.credentialed, effectiveSpec, h, if_true, credentialed_append,
    credentialed_applySpec, RequestSpec.credentialed, hstrip, List.any_cons, List.any_nil,
    not_credential_range, Option.isSome_none, Bool.or_false]

theorem credentialed_windowRequest (offset len : ℕ) :
    (windowRequest client spec url offset len).credentialed = spec.credentialed := by
  simp only [windowRequest, Request.credentialed, credentialed_append, credentialed_applySpec,
    List.any_cons, List.any_nil, not_credential_range, Bool.or_false]

theorem credentialed_streamRequest (ctx : WorkerCtx) (first stop : ℕ) :
    (streamRequest ctx client spec url first stop).credentialed = spec.credentialed := by
  unfold streamRequest Request.credentialed
  rw [credentialed_append, credentialed_applySpec]
  split_ifs
  · simp only [List.any_cons, List.any_nil, not_credential_range, Bool.or_false]
  · exact Bool.or_false _

/-! ### What is sent -/

/-- Everything in the traffic was there before or satisfies `φ`. -/
def Sends (φ : Request → Prop) (t₀ t : List Exchange) : Prop := ∀ x ∈ t, x ∈ t₀ ∨ φ x.request

theorem Sends.refl (φ : Request → Prop) (t : List Exchange) : Sends φ t t := fun _ hx => .inl hx

theorem Sends.snoc {φ : Request → Prop} {t₀ : List Exchange} {x : Exchange} (hx : φ x.request) :
    Sends φ t₀ (t₀ ++ [x]) := by
  intro y hy
  rcases List.mem_append.1 hy with hy | hy
  · exact .inl hy
  · rw [List.mem_singleton.1 hy]
    exact .inr hx

theorem Sends.trans {φ : Request → Prop} {t₀ t₁ t₂ : List Exchange} (h : Sends φ t₀ t₁)
    (h' : Sends φ t₁ t₂) : Sends φ t₀ t₂ := fun x hx => (h' x hx).elim (h x) .inr

theorem Sends.mono {φ ψ : Request → Prop} {t₀ t₁ : List Exchange} (h : Sends φ t₀ t₁)
    (hφ : ∀ r, φ r → ψ r) : Sends ψ t₀ t₁ := fun x hx => (h x hx).imp_right (hφ _)

/-- A request of a probe from this origin. -/
def ProbeSends (spec : RequestSpec) (origin : Url) (r : Request) : Prop :=
  ∃ client u, r = probeRequest client spec origin u

/-- A request for a window. -/
def WindowSends (client : Client) (spec : RequestSpec) (url : Url) (r : Request) : Prop :=
  ∃ offset len, r = windowRequest client spec url offset len

theorem follow_sends {worked : Bool} (left : ℕ) (current : Url) (chain : List Hop)
    (t₀ : List Exchange) :
    Program.Triple (· = t₀)
      (follow lib net naming settings spec worked origin left current chain)
      (fun _ => Sends (ProbeSends spec origin) t₀)
      (fun _ => Sends (ProbeSends spec origin) t₀) := by
  induction left generalizing current chain t₀ with
  | zero => exact Program.Triple.throw fun t ht => by rw [ht]; exact .refl _ _
  | succ left ih =>
    have hsent : ∀ {r x}, Answered net settings spec origin current t₀.length r x →
        Sends (ProbeSends spec origin) t₀ (t₀ ++ [x]) := by
      rintro r _ ⟨client, _, _, rfl⟩
      exact .snoc ⟨client, current, rfl⟩
    refine follow_rule (fun _ => .refl _ _) (fun _ _ _ hx => hsent hx)
      (fun _ _ hx _ _ => hsent hx) fun reply x location next hx _ _ _ _ => ?_
    refine (ih next _ _).conseq (fun _ h => h) ?_ ?_
    · exact fun _ t h => (hsent hx).trans h
    · exact fun _ t h => (hsent hx).trans h

theorem probe_sends (worked : Bool) {x : Exchange}
    (hx : x ∈ ((probe lib net naming settings spec worked raw).runFrom []).2) :
    ∃ start client u, validateUrl lib raw = .ok start ∧
      x.request = probeRequest client spec start u := by
  unfold probe at hx
  cases hstart : validateUrl lib raw with
  | error error =>
    rw [hstart] at hx
    exact absurd hx List.not_mem_nil
  | ok start =>
    rw [hstart] at hx
    have hrun : Program.Triple (· = [])
        (follow lib net naming settings spec worked start (settings.maxRedirects + 1) start [])
        _ _ := follow_sends _ start [] []
    rcases hrun.final rfl x hx with h | ⟨client, u, h⟩
    · exact absurd h List.not_mem_nil
    · exact ⟨start, client, u, rfl, h⟩

theorem checkWindows_sends {part : PartFile} (windows : List (ℕ × ℕ)) (n : ℕ)
    (t₀ : List Exchange) :
    Program.Triple (· = t₀) (checkWindows net spec part client url windows n)
      (fun _ => Sends (WindowSends client spec url) t₀)
      (fun _ => Sends (WindowSends client spec url) t₀) := by
  induction windows generalizing n t₀ with
  | nil => exact Program.Triple.pure fun t ht => by rw [ht]; exact .refl _ _
  | cons w windows ih =>
    obtain ⟨offset, len⟩ := w
    rw [checkWindows]
    cases part.readError offset with
    | some text => exact Program.Triple.throw fun t ht => by rw [ht]; exact .refl _ _
    | none =>
      refine Program.Triple.bind (Q := fun r t =>
        t = t₀ ++ [⟨windowRequest client spec url offset len, r⟩])
        (Program.Triple.modifyGet fun t ht => by rw [ht]) fun r => ?_
      have hsent : ∀ r, Sends (WindowSends client spec url) t₀
          (t₀ ++ [⟨windowRequest client spec url offset len, r⟩]) :=
        fun _ => .snoc ⟨offset, len, rfl⟩
      cases r with
      | error kind => exact Program.Triple.throw fun t ht => by rw [ht]; exact hsent _
      | ok reply =>
        refine Program.Triple.ite (fun hstatus => ?_) fun _ => Program.Triple.pure fun t ht => by
          rw [ht]; exact hsent _
        cases reply.bytes with
        | error text => exact Program.Triple.throw fun t ht => by rw [ht]; exact hsent _
        | ok remote =>
          dsimp only
          cases firstDifference offset (part.file.readAt offset len) remote with
          | some place => exact Program.Triple.pure fun t ht => by rw [ht]; exact hsent _
          | none =>
            refine (ih _ _).conseq (fun _ h => h) ?_ ?_
            · exact fun _ t h => (hsent _).trans h
            · exact fun _ t h => (hsent _).trans h

theorem validateContent_sends {digest : List UInt8 → List UInt8} {part : PartFile}
    {old : ResourceSignals} {completed : RangeSet} {downloadId : String} (pr : ProbeDetails)
    (t₀ : List Exchange) :
    Program.Triple (· = t₀)
      (validateContent lib net settings spec digest part old completed downloadId pr)
      (fun _ => Sends (fun r => pr.rangeSupport = .supported ∧
        ∃ client, WindowSends client spec pr.finalUrl r) t₀)
      (fun _ => Sends (fun r => pr.rangeSupport = .supported ∧
        ∃ client, WindowSends client spec pr.finalUrl r) t₀) := by
  unfold validateContent
  refine Program.Triple.ite (fun _ => Program.Triple.pure fun t ht => by rw [ht]; exact .refl _ _)
    fun hver => ?_
  have hsup : pr.rangeSupport = .supported := by
    have hver := Bool.not_eq_false _ |>.mp hver
    exact (of_decide_eq_true (Bool.and_eq_true_iff.1 hver).1).2
  cases Client.build net settings spec pr.finalUrl with
  | error error => exact Program.Triple.throw fun t ht => by rw [ht]; exact .refl _ _
  | ok client =>
    dsimp only
    cases part.openError with
    | some text => exact Program.Triple.throw fun t ht => by rw [ht]; exact .refl _ _
    | none =>
      have hmono : ∀ t, Sends (WindowSends client spec pr.finalUrl) t₀ t →
          Sends (fun r => pr.rangeSupport = .supported ∧
            ∃ client, WindowSends client spec pr.finalUrl r) t₀ t :=
        fun t h => h.mono fun r hr => ⟨hsup, client, hr⟩
      refine Program.Triple.bind ((checkWindows_sends _ 0 t₀).conseq (fun _ h => h)
        (fun _ t h => hmono t h) fun _ t h => hmono t h) fun res => ?_
      cases res with
      | refused offset bytes => exact Program.Triple.pure fun t ht => ht
      | compared mismatch bytes => exact Program.Triple.pure fun t ht => ht

/-- A validation sends what its probe sends, and requests for windows to where the probe ended. -/
theorem validate_sends {digest : List UInt8 → List UInt8} {part : PartFile}
    {old : ResourceSignals} {completed : RangeSet} {downloadId : String} {x : Exchange}
    (hx : x ∈ ((validateReplacementUrl lib net naming settings spec digest part raw old completed
      downloadId).runFrom []).2) :
    x ∈ ((probe lib net naming settings spec false raw).runFrom []).2 ∨
      ∃ pr, ((probe lib net naming settings spec false raw).runFrom []).1 = .ok pr ∧
        pr.rangeSupport = .supported ∧ ∃ client, WindowSends client spec pr.finalUrl x.request := by
  unfold validateReplacementUrl at hx
  rw [Program.runFrom_bind, Program.runFrom_mapError] at hx
  generalize (probe lib net naming settings spec false raw).runFrom [] = res at hx ⊢
  obtain ⟨r, t⟩ := res
  cases r with
  | error error => exact .inl hx
  | ok pr =>
    rcases (validateContent_sends pr t).final rfl x hx with h | ⟨hsup, h⟩
    · exact .inl h
    · exact .inr ⟨pr, rfl, hsup, h⟩

/-! ### The workers -/

/-- A request is out. -/
def WorkerPhase.requesting : WorkerPhase → Bool
  | connecting _ _ _ _ => true
  | _ => false

namespace Worker

variable {ctx : WorkerCtx} {cancelled retire : Bool} {sh sh' : Shared} {w w' : Worker}

theorem requesting_fail (id attempt : ℕ) (error : ErrorClass) (sh : Shared) (w : Worker) :
    (w.fail ctx id attempt error sh).2.phase.requesting = false := by
  rcases fail_phase ctx id attempt error sh w with h | h <;> rw [h] <;> rfl

theorem requesting_endBody (c : ClaimSlot) (attempt : ℕ) (sh : Shared) (w : Worker) :
    (w.endBody ctx retire c attempt sh).2.phase.requesting = false := by
  rcases endBody_cases ctx retire c attempt sh w with ⟨-, -, -, h⟩ | ⟨-, h⟩ <;> rw [h]
  · exact requesting_fail _ _ _ _ _
  · rfl

theorem Stepped.requesting {e : WorkerEvent} {r : Shared × Worker}
    (h : w.Stepped ctx cancelled retire sh e r) :
    r.2.phase.requesting = false ∨ ∃ id c, sh.plan.slot? id = some c ∧ c.isDone = false := by
  cases h with
  | connects c attempt hp hc hdone => exact .inr ⟨c.id, c, hc, hdone⟩
  | builds ok => exact .inl (by cases ok <;> rfl)
  | checks => exact .inl (by cases cancelled <;> cases retire <;> rfl)
  | refuses => exact .inl (requesting_fail _ _ _ _ _)
  | stops => exact .inl (requesting_fail _ _ _ _ _)
  | breaks => exact .inl (requesting_fail _ _ _ _ _)
  | abandoned => exact .inl (requesting_fail _ _ _ _ _)
  | ends => exact .inl (requesting_endBody _ _ _ _)
  | shrunk => exact .inl (requesting_endBody _ _ _ _)
  | satisfied => exact .inl (requesting_endBody _ _ _ _)
  | releases id exit => exact .inl (by cases exit <;> rfl)
  | _ => exact .inl rfl

/-- A request goes out only for a claim that is not done. -/
theorem connect_of_requesting {e : WorkerEvent}
    (h : w.step ctx cancelled retire sh e = some (sh', w')) (hw : w'.phase.requesting = true) :
    ∃ id c, sh.plan.slot? id = some c ∧ c.isDone = false :=
  (stepped h).requesting.resolve_left (by simp [hw])

end Worker

theorem requesting_of_reaches {cfg : DriveCfg} {completed : RangeSet} {total : Option ℕ}
    {seed k0 : ℕ} {govCfg : GovernorConfig} {now : Nanos} {d : Drive} (hc : completed.Ordered)
    (hwork : cover (Plan.new total completed).ranges = ∅)
    (h : (driveMachine cfg).Reaches
      (.start ((Plan.new total completed).seed seed) govCfg k0 now) d) :
    ∀ w ∈ d.workers, w.phase.requesting = false := by
  induction h with
  | refl =>
    intro w hw
    rw [Drive.start_workers] at hw
    rw [List.eq_of_mem_replicate hw]
    rfl
  | @tail s s' e hr _ hst ih =>
    intro w hw
    obtain ⟨j, hj⟩ := List.mem_iff_getElem?.1 hw
    by_cases he : ∃ i we, e = .worker i we
    · obtain ⟨i, we, rfl⟩ := he
      obtain ⟨w₀, sh, w', -, hw₀, hstep, rfl⟩ := Drive.step_worker hst
      rcases List.mem_or_eq_of_mem_set hw with hw | rfl
      · exact ih w hw
      · by_contra hreq
        obtain ⟨id, c, hslot, hdone⟩ :=
          Worker.connect_of_requesting hstep (Bool.not_eq_false _ |>.mp hreq)
        have hlinked := Drive.linked hc hr
        have hle := hlinked.outstanding_le (by rw [hwork]; exact Set.finite_empty)
        rw [hwork, Set.ncard_empty] at hle
        have hmem := (Plan.mem_of_slot? hslot).1
        have hactive := Plan.mem_activeSlots.2 ⟨hmem, hlinked.owned.valid.active c hmem⟩
        have hpos : 0 < c.remaining := by
          have := of_decide_eq_false hdone
          unfold ClaimSlot.remaining
          omega
        have hsum : c.remaining ≤ (s.shared.plan.activeSlots.map ClaimSlot.remaining).sum :=
          List.single_le_sum (by simp) _ (List.mem_map_of_mem hactive)
        unfold Plan.outstanding at hle
        omega
    · rcases Drive.step_workers (fun i we heq => he ⟨i, we, heq⟩) hst hj with h | h | h
      · exact ih w (List.mem_of_getElem? h)
      · rw [h]
        rfl
      · rw [h]
        rfl

/-! ### Leaks -/

theorem exists_window {part : PartFile} (hread : ∀ n, part.readError n = none) (offset len : ℕ)
    (t : List Exchange) :
    ∃ x ∈ ((checkWindows net spec part client url [(offset, len)] 0).runFrom t).2,
      x.request = windowRequest client spec url offset len := by
  rw [checkWindows, hread]
  dsimp only
  rw [Program.runFrom_bind]
  simp only [Net.send, Program.runFrom_modifyGet]
  generalize net.answer t.length (windowRequest client spec url offset len) = r
  refine ⟨⟨windowRequest client spec url offset len, r⟩, ?_, rfl⟩
  have hmem : ∀ x : Exchange, x ∈ t ++ [x] :=
    fun _ => List.mem_append_right _ (List.mem_singleton_self _)
  cases r with
  | error kind => exact hmem _
  | ok reply =>
    dsimp only
    split_ifs
    · cases reply.bytes with
      | error text => exact hmem _
      | ok remote =>
        dsimp only
        cases firstDifference offset (part.file.readAt offset len) remote <;> exact hmem _
    · exact hmem _

/-- Where nothing is known of the old resource, the content decides. -/
theorem compare_unknown {new : ResourceSignals} (h : new.rangeSupport = .supported) :
    (ResourceSignals.compare {} new).1 = .verifyThenConfirm := by
  unfold ResourceSignals.compare
  rw [show ResourceSignals.sizeMismatch {} new = none from rfl]
  dsimp only
  rw [if_neg (not_not.2 h)]
  rw [show (ResourceSignals.evidence {} new).etagMatches = false from rfl,
    show (ResourceSignals.evidence {} new).sizeMatches = false from rfl,
    show (ResourceSignals.evidence {} new).etagChanged = false from rfl]
  rfl

theorem issues_window {pr : ProbeDetails} {t : List Exchange}
    (hprobe : (probe lib net naming settings spec false raw).runFrom [] = (.ok pr, t))
    (hsup : pr.rangeSupport = .supported)
    (hclient : Client.build net settings spec pr.finalUrl = .ok client) :
    Issues lib net naming settings spec raw (windowRequest client spec pr.finalUrl 0 1) := by
  obtain ⟨x, hx, hreq⟩ : ∃ x ∈ ((checkWindows net spec ⟨.empty, none, fun _ => none⟩ client
      pr.finalUrl [(0, 1)] 0).runFrom t).2, x.request = windowRequest client spec pr.finalUrl 0 1 :=
    exists_window (fun _ => rfl) 0 1 t
  rw [← hreq]
  -- one byte is claimed, and nothing else is known of the resource
  refine .window (fun b => b) ⟨.empty, none, fun _ => none⟩ {} ⟨[(0, 1)]⟩ "" ?_
  have hcmp : (ResourceSignals.compare {} (.fromProbe pr)).1 = .verifyThenConfirm :=
    compare_unknown hsup
  have hver : verifiable ⟨[(0, 1)]⟩ pr.rangeSupport .verifyThenConfirm = true := by
    rw [hsup]
    rfl
  have hwindows : chooseWindows (fun b => b) ⟨[(0, 1)]⟩ "" windowCount = [(0, 1)] := rfl
  unfold validateReplacementUrl validateContent
  rw [Program.runFrom_bind, Program.runFrom_mapError, hprobe]
  simp only [hcmp, hver, hclient, hwindows, Bool.true_eq_false, if_false, Program.runFrom_bind]
  generalize (checkWindows net spec _ client pr.finalUrl [(0, 1)] 0).runFrom t = res at hx ⊢
  obtain ⟨r, t'⟩ := res
  cases r with
  | error error => exact hx
  | ok res => cases res <;> exact hx

theorem exists_free {total : Option ℕ} (h : ∀ t, total = some t → 0 < t) (n : ℕ) :
    ∃ q ∈ ((Plan.new total .new).seed n).free, 0 < q.2 := by
  have hvalid := Plan.valid_new total RangeSet.ordered_new
  have hzero : 0 ∈ cover (Plan.new total .new).ranges := by
    cases total with
    | none => exact mem_cover_of_mem (p := (0, u64Max)) List.mem_cons_self le_rfl (by decide)
    | some t =>
      rw [Plan.cover_ranges_new t RangeSet.ordered_new]
      exact ⟨h t rfl, by simp⟩
  rw [← hvalid.cover_seed n] at hzero
  obtain ⟨q, hq, hle, hlt⟩ := mem_cover.1 hzero
  have hslots : ((Plan.new total .new).seed n).slots = [] := Plan.seed_slots n _
  rw [Plan.ranges_of_active (by rw [hslots]; simp), hslots, List.map_nil, List.append_nil] at hq
  exact ⟨q, hq, by omega⟩

theorem issues_worker {pr : ProbeDetails} {t : List Exchange}
    (hprobe : (probe lib net naming settings spec false raw).runFrom [] = (.ok pr, t))
    (hsize : ∀ total, pr.totalSize = some total → 0 < total ∧ total ≤ maxFileLen)
    (hclient : Client.build net settings spec pr.finalUrl = .ok client) :
    ∃ r, Issues lib net naming settings spec raw r ∧ r.url = pr.finalUrl ∧
      r.credentialed = spec.credentialed := by
  have hroom : noRoom { destDir := [] } pr.toProbeResult u64Max = false := by
    unfold noRoom
    cases htotal : pr.totalSize with
    | none => rfl
    | some total =>
      have hspace : ∀ n, ensureSpace u64Max n = true := fun n => decide_eq_true (min_le_right _ _)
      have hle : decide (maxFileLen < total) = false :=
        decide_eq_false (not_lt.2 (hsize total htotal).2)
      rw [Option.any_some, hspace, hle]
      rfl
  have hp : prepare settings { destDir := [] } pr.toProbeResult u64Max none =
      .ok (setUp settings { destDir := [] } pr.toProbeResult none) := prepare_eq_ok.2 ⟨hroom, rfl⟩
  have hfresh : reconcile .new none (openPart none pr.totalSize) pr.totalSize = .new := by
    cases pr.totalSize <;> rfl
  set p := setUp settings { destDir := [] } pr.toProbeResult none
  have hplan : p.plan = (Plan.new pr.totalSize .new).seed p.k0 :=
    congrArg (fun completed => (Plan.new pr.totalSize completed).seed p.k0) hfresh
  obtain ⟨q, hq, hpos⟩ := exists_free (fun total h => (hsize total h).1) p.k0
  rw [← hplan] at hq
  have hslots : p.plan.slots = [] := by
    rw [hplan, Plan.seed_slots]
    rfl
  obtain ⟨d, id, first, stop, w, hw, hd, hphase⟩ := Drive.exists_connect p.cfg p.govCfg 0
    (one_le_initialConns _ _ _ _ : 1 ≤ p.k0) hslots hq hpos
  have hr : streamRequest p.cfg.ctx client spec pr.finalUrl first stop ∈
      d.requests p.cfg.ctx client spec pr.finalUrl :=
    List.mem_filterMap.2 ⟨w, hw, by rw [hphase]⟩
  exact ⟨_, .worker (by rw [hprobe]) RangeSet.ordered_new hp 0 hd hclient hr, rfl,
    credentialed_streamRequest _ _ _⟩

/-! ### Where they stay -/

theorem probe_stays {worked : Bool} {x : Exchange} (hstart : validateUrl lib raw = .ok start)
    (hx : x ∈ ((probe lib net naming settings spec worked raw).runFrom []).2)
    (hcross : isCrossOrigin start x.request.url = true) : x.request.credentialed = false := by
  obtain ⟨start', client, u, hstart', hreq⟩ := probe_sends worked hx
  rw [hstart] at hstart'
  obtain rfl := Except.ok.inj hstart'
  rw [hreq] at hcross ⊢
  exact credentialed_probeRequest hcross

section Prepared

variable {req : DownloadRequest} {pr : ProbeResult} {available total : ℕ} {existing : Option File}
  {p : Prepared}

theorem le_maxFileLen_of_prepare (htotal : pr.totalSize = some total)
    (h : prepare settings req pr available existing = .ok p) : total ≤ maxFileLen := by
  obtain ⟨hroom, -⟩ := prepare_eq_ok.1 h
  rw [noRoom, htotal, Option.any_some, Bool.or_eq_false_iff] at hroom
  exact not_lt.1 (of_decide_eq_false hroom.2)

theorem requesting_of_empty (hc : req.completed.Ordered) (htotal : pr.totalSize = some 0)
    (h : prepare settings req pr available existing = .ok p) {now : Nanos} {d : Drive}
    (hd : (driveMachine p.cfg).Reaches (p.start now) d) :
    ∀ w ∈ d.workers, w.phase.requesting = false := by
  obtain ⟨-, rfl⟩ := prepare_eq_ok.1 h
  have hord := ordered_reconcile hc existing (openPart existing pr.totalSize) pr.totalSize
  refine requesting_of_reaches hord ?_ hd
  rw [htotal, Plan.cover_ranges_new 0 (htotal ▸ hord)]
  simp

end Prepared

/-- A probe that returns ends where the chain of redirects lands. -/
theorem lands_of_probe {pr : ProbeDetails} (hstart : validateUrl lib raw = .ok start)
    (hpr : ((probe lib net naming settings spec false raw).runFrom []).1 = .ok pr) :
    ∃ reply, Lands lib net settings spec start pr.finalUrl reply ∧
      (interpret naming reply pr.finalUrl []).nothingToFetch = pr.nothingToFetch := by
  have hend : Program.Triple (· = []) (probe lib net naming settings spec false raw) _ _ :=
    probe_lands raw
  have hend := hend [] rfl
  rcases h : (probe lib net naming settings spec false raw).runFrom [] with ⟨r, t⟩
  rw [h] at hpr hend
  obtain rfl : r = .ok pr := hpr
  obtain ⟨start', u, reply, chain, hstart', hlands, rfl⟩ := hend
  rw [hstart] at hstart'
  obtain rfl := Except.ok.inj hstart'
  exact ⟨reply, hlands, rfl⟩

theorem mem_requests {ctx : WorkerCtx} {d : Drive} {r : Request}
    (h : r ∈ d.requests ctx client spec url) :
    ∃ w ∈ d.workers, w.phase.requesting = true ∧
      ∃ first stop, r = streamRequest ctx client spec url first stop := by
  obtain ⟨w, hw, hr⟩ := List.mem_filterMap.1 h
  refine ⟨w, hw, ?_⟩
  cases hphase : w.phase with
  | connecting id attempt first stop =>
    rw [hphase] at hr
    exact ⟨rfl, first, stop, (Option.some.inj hr).symm⟩
  | _ =>
    rw [hphase] at hr
    cases hr

/-- **Credentials stay at the origin exactly when there are none, or the chain of redirects does
not end at another origin with something to fetch.**  The probe alone strips them. -/
theorem credentials_stay_iff (lib : UrlLib) (net : Net) (naming : Naming) (settings : Settings)
    (spec : RequestSpec) (raw : String) :
    (∀ start r, validateUrl lib raw = .ok start → Issues lib net naming settings spec raw r →
      isCrossOrigin start r.url = true → r.credentialed = false) ↔
    spec.credentialed = false ∨ ∀ start u reply, validateUrl lib raw = .ok start →
      Lands lib net settings spec start u reply → isCrossOrigin start u = true →
        (interpret naming reply u []).nothingToFetch = true := by
  constructor
  · intro h
    by_contra hcond
    obtain ⟨hcred, hcond⟩ := not_or.1 hcond
    push Not at hcond
    obtain ⟨start, u, reply, hstart, hlands, hcross, hfetch⟩ := hcond
    obtain ⟨chain, t, hprobe⟩ : ∃ chain t,
        (probe lib net naming settings spec false raw).runFrom [] =
          (.ok (interpret naming reply u chain), t) := probe_of_lands hstart hlands
    obtain ⟨_, _, _, ⟨client, hclient, _⟩, _⟩ := hlands
    -- whatever follows the probe sends everything
    obtain ⟨r, hissue, hurl, hr⟩ : ∃ r, Issues lib net naming settings spec raw r ∧ r.url = u ∧
        r.credentialed = spec.credentialed := by
      by_cases hsup : (interpret naming reply u chain).rangeSupport = .supported
      · exact ⟨_, issues_window hprobe hsup hclient, rfl, credentialed_windowRequest _ _⟩
      · refine issues_worker hprobe (fun total htotal => ?_) hclient
        by_contra hsize
        exact hfetch (ProbeDetails.nothingToFetch_iff.2 ⟨hsup, total, htotal, by omega⟩)
    exact hcred (hr ▸ h start r hstart hissue (by rw [hurl]; exact hcross))
  · intro hcond start r hstart hissue hcross
    cases hissue with
    | probe worked hx => exact probe_stays hstart hx hcross
    | worker hpr hc hp now hd hclient hr =>
      obtain ⟨w, hw, hreq, first, stop, rfl⟩ := mem_requests hr
      rw [credentialed_streamRequest]
      refine hcond.resolve_right fun hcond => ?_
      obtain ⟨reply, hlands, hfetch⟩ := lands_of_probe hstart hpr
      obtain ⟨-, total, htotal, hsize⟩ := ProbeDetails.nothingToFetch_iff.1
        (hfetch ▸ hcond start _ reply hstart hlands hcross)
      rcases hsize with rfl | hlarge
      · rw [requesting_of_empty hc htotal hp hd w hw] at hreq
        cases hreq
      · exact absurd (le_maxFileLen_of_prepare htotal hp) (not_le.2 hlarge)
    | window digest part old completed downloadId hx =>
      rcases validate_sends hx with hx | ⟨pr, hpr, hsup, client, offset, len, hreq⟩
      · exact probe_stays hstart hx hcross
      · rw [hreq] at hcross ⊢
        rw [credentialed_windowRequest]
        refine hcond.resolve_right fun hcond => ?_
        obtain ⟨reply, hlands, hfetch⟩ := lands_of_probe hstart hpr
        obtain ⟨hno, -⟩ := ProbeDetails.nothingToFetch_iff.1
          (hfetch ▸ hcond start _ reply hstart hlands hcross)
        exact hno hsup

/-- A library that knows a file and its copy on another host. -/
def movedLib : UrlLib := .ofTable
  [("https://ex.com/f", .ok { scheme := "https", host := some "ex.com", path := "/f" }),
    ("https://cdn.net/f", .ok { scheme := "https", host := some "cdn.net", path := "/f" })] []

/-- A server that sends everyone to the copy, and the server with the copy, which has one byte. -/
def movedNet : Net where
  proxyError _ := none
  buildError _ := none
  answer _ req :=
    if req.url.host = some "ex.com" then
      .ok { status := 302, body := [], location := some "https://cdn.net/f" }
    else .ok { status := 206, body := [0], contentRange := some ⟨0, 0, some 1, le_rfl, by simp⟩ }
  display kind _ := kind

/-- A caller with a cookie. -/
def cookieSpec : RequestSpec := { cookies := some "session=1" }

/-- The cookie for one host is sent to another. -/
theorem credentials_leave :
    ¬∀ (lib : UrlLib) (net : Net) (naming : Naming) (settings : Settings) (spec : RequestSpec)
      (raw : String) start r, validateUrl lib raw = .ok start →
        Issues lib net naming settings spec raw r → isCrossOrigin start r.url = true →
          r.credentialed = false := by
  intro h
  have hstart : validateUrl movedLib "https://ex.com/f" =
      .ok { scheme := "https", host := some "ex.com", path := "/f" } := rfl
  have hleads : Leads movedLib movedNet {} cookieSpec
      { scheme := "https", host := some "ex.com", path := "/f" } 1
      { scheme := "https", host := some "cdn.net", path := "/f" } :=
    .next .start ⟨_, rfl, rfl, rfl⟩ rfl rfl (by decide) rfl
  have hlands : Lands movedLib movedNet {} cookieSpec
      { scheme := "https", host := some "ex.com", path := "/f" }
      { scheme := "https", host := some "cdn.net", path := "/f" } _ :=
    ⟨1, _, hleads, ⟨_, rfl, rfl, rfl⟩, rfl, rfl⟩
  obtain ⟨chain, t, hprobe⟩ : ∃ chain t, (probe movedLib movedNet (fun _ _ _ => ['f']) {}
      cookieSpec false "https://ex.com/f").runFrom [] = (.ok (interpret _ _ _ chain), t) :=
    probe_of_lands hstart hlands
  have hissue := issues_window hprobe rfl rfl
  have hstays := h _ _ _ _ _ _ _ _ hstart hissue rfl
  rw [credentialed_windowRequest] at hstays
  cases hstays

end SwiftLoad
