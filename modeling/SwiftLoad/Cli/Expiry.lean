import SwiftLoad.Cli.Resume
import SwiftLoad.Store.History
import SwiftLoad.Task.Expiry
import SwiftLoad.Task.Probing

/-!
# Resuming from an expired link

A link that worked before and is answered 403 has expired, and the user can give the download a
fresh one.  `cmd_resume` asks twice: the probe of `download`, which is told that the URL has not
worked before, and the workers, which know that it has.  `run` looks for the verdict of the workers
only.

* `WorkerRun`, `ResumeRun` : the runs of `cmd_resume`, with everything that the server answered.
* `ResumeRun.Recognised` : the expired link is recognised, and the partial is kept.
* `ResumeRun.kept` : no run in which the writer lives loses the partial.
* `expiry_recognised_iff` : **when an expired link is recognised.**
* `expiry_missed` : a link that has expired before the command starts is not.
-/

namespace SwiftLoad

/-- The request is answered 403. -/
def Exchange.forbidden (x : Exchange) : Bool :=
  match x.answer with
  | .ok reply => decide (reply.status = 403)
  | .error _ => false

/-! ### The probe -/

section Probe

variable {lib : UrlLib} {net : Net} {naming : Naming} {settings : Settings} {spec : RequestSpec}
  {worked : Bool} {origin current : Url}

theorem Answered.forbidden_eq {n : ℕ} {reply : Reply} {x : Exchange}
    (h : Answered net settings spec origin current n (.ok reply) x) :
    x.forbidden = decide (reply.status = 403) := by
  obtain ⟨client, -, -, rfl⟩ := h
  rfl

theorem follow_allowed (left : ℕ) (chain : List Hop) {t₀ : List Exchange}
    (h : ∀ x ∈ t₀, x.forbidden = false) :
    Program.Triple (· = t₀) (follow lib net naming settings spec worked origin left current chain)
      (fun _ t => ∀ x ∈ t, x.forbidden = false) (fun _ _ => True) := by
  induction left generalizing current chain t₀ with
  | zero => exact Program.Triple.throw fun _ _ => trivial
  | succ left ih =>
    have hsent : ∀ {reply x}, Answered net settings spec origin current t₀.length (.ok reply) x →
        reply.status ≠ 403 → ∀ y ∈ t₀ ++ [x], y.forbidden = false := by
      intro reply x hx hstatus y hy
      rcases List.mem_append.1 hy with hy | hy
      · exact h y hy
      · rw [List.mem_singleton.1 hy, hx.forbidden_eq]
        exact decide_eq_false hstatus
    refine follow_rule (fun _ => trivial) (fun _ _ _ _ => trivial) (fun reply x hx _ hsucc => ?_)
      fun reply x location next hx hred _ _ _ => ?_
    · refine hsent hx fun hstatus => ?_
      simp [Response.success, hstatus] at hsucc
    · refine ih _ (hsent hx fun hstatus => ?_)
      simp [Reply.isRedirect, hstatus] at hred

theorem probe_allowed {raw : String} {pr : ProbeDetails} {traffic : List Exchange}
    (h : (probe lib net naming settings spec worked raw).runFrom [] = (.ok pr, traffic)) :
    ∀ x ∈ traffic, x.forbidden = false := by
  have hspec : Program.Triple (· = []) (probe lib net naming settings spec worked raw)
      (fun _ t => ∀ x ∈ t, x.forbidden = false) (fun _ _ => True) := by
    unfold probe
    cases validateUrl lib raw with
    | error error => exact Program.Triple.throw fun _ _ => trivial
    | ok url => exact follow_allowed _ _ (by simp)
  have hends : Program.Ends _ _ ((probe lib net naming settings spec worked raw).runFrom []) :=
    hspec [] rfl
  rw [h] at hends
  exact hends

/-- The error says that the link has expired. -/
def ProbeError.expired : ProbeError → Bool
  | .status _ .urlExpired => true
  | _ => false

theorem ask_fresh : Program.Triple (fun _ => True) (ask net settings spec origin current)
    (fun _ _ => True) (fun e _ => e.expired = false) := by
  unfold ask
  cases Client.build net settings spec current with
  | error error => exact Program.Triple.throw fun _ _ => rfl
  | ok client =>
    refine Program.Triple.bind (Q := fun _ _ => True) (Program.Triple.modifyGet fun _ _ => trivial)
      fun answer => ?_
    cases answer with
    | error kind => exact Program.Triple.throw fun _ _ => rfl
    | ok reply => exact Program.Triple.pure fun _ _ => trivial

/-- A hop of a probe that is told that the URL has not worked before never says that the link has
expired. -/
theorem hop_fresh (left : ℕ) (chain : List Hop) : Program.Triple (fun _ => True)
    (hop lib net naming settings spec false origin left current chain)
    (fun _ _ => True) (fun e _ => e.expired = false) := by
  unfold hop
  refine Program.Triple.bind ask_fresh fun reply => ?_
  refine Program.Triple.ite (fun _ => ?_) fun _ => ?_
  · refine Program.Triple.ite (fun _ => Program.Triple.throw fun _ _ => rfl) fun _ => ?_
    cases reply.location with
    | none => exact Program.Triple.throw fun _ _ => rfl
    | some location =>
      dsimp only
      cases nextUrl lib current location (!settings.blockInsecureRedirect) with
      | error error => exact Program.Triple.throw fun _ _ => rfl
      | ok next => exact Program.Triple.pure fun _ _ => trivial
  · refine Program.Triple.ite (fun _ => Program.Triple.throw fun _ _ => ?_) fun _ =>
      Program.Triple.pure fun _ _ => trivial
    have hfresh := classifyStatus_fresh_ne reply.status reply.retryAfter
    generalize classifyStatus reply.status reply.retryAfter false = error at hfresh
    cases error <;> first | rfl | exact absurd rfl hfresh

theorem probe_fresh (raw : String) : Program.Triple (fun _ => True)
    (probe lib net naming settings spec false raw) (fun _ _ => True)
    (fun e _ => e.expired = false) := by
  have hfollow : ∀ left origin current chain, Program.Triple (fun _ => True)
      (follow lib net naming settings spec false origin left current chain) (fun _ _ => True)
      (fun e _ => e.expired = false) := by
    intro left origin
    induction left with
    | zero => exact fun _ _ => Program.Triple.throw fun _ _ => rfl
    | succ left ih =>
      intro current chain
      refine Program.Triple.bind (hop_fresh left chain) fun res => ?_
      cases res with
      | inl details => exact Program.Triple.pure fun _ _ => trivial
      | inr next => exact ih next.1 next.2
  unfold probe validateUrl
  cases lib.parse raw with
  | error text => exact Program.Triple.throw fun _ _ => rfl
  | ok url =>
    dsimp only
    split_ifs
    · exact hfollow _ _ _ _
    · exact Program.Triple.throw fun _ _ => rfl

end Probe

/-! ### The workers and the writer -/

/-- A run of `download` in which the workers start: what they and the writer meet. -/
structure WorkerRun (settings : Settings) (req : DownloadRequest) (pr : ProbeResult)
    (available : ℕ) (existing : Option File) where
  prepared : Prepared
  ready : prepare settings req pr available existing = .ok prepared
  now : Nanos
  events : List DriveEvent
  last : Drive
  drives : (driveMachine prepared.cfg).exec (prepared.start now) events = some last
  left : last.pc = .left
  env : Env
  inbox : List Queued
  received : Inbox last inbox
  fin : Finale

namespace WorkerRun

variable {settings : Settings} {req : DownloadRequest} {pr : ProbeResult} {available : ℕ}
  {existing : Option File} (w : WorkerRun settings req pr available existing)

/-- What becomes of the writer. -/
def written : Except WriterError RangeSet × WriterState :=
  Writer.run w.env w.prepared.completed w.inbox

/-- The answer to the `Finish` message. -/
def answer : Option RangeSet := finalRanges w.written

/-- The part file after the run. -/
def part : File := ((⟨w.prepared.file, w.prepared.file⟩ : Disk).replay w.written.2.log).volatile

/-- How `download` ends. -/
def outcome : Except DownloadError File := conclude settings req pr w.fin w.last w.answer w.part

theorem downloads :
    Downloads settings req pr available existing w.answer w.written.2.log w.outcome :=
  .ran w.ready w.now (Machine.reaches_of_exec w.drives) w.left w.env w.received w.fin rfl

/-- A request of a worker is answered 403. -/
def Forbidden : Prop := ∃ i, Drive.Forbidden i w.events

/-- The first failure that the driver takes notice of is that of a worker that was answered 403, and
the writer answers. -/
structure Noticed : Prop where
  first : Drive.FirstForbidden w.prepared.cfg (w.prepared.start w.now) w.events
  flushed : w.answer.isSome = true

theorem outcome_expired_iff : w.outcome = .error (.failed .urlExpired) ↔ w.Noticed := by
  have hfatal : w.last.fatal = some .urlExpired ↔
      Drive.FirstForbidden w.prepared.cfg (w.prepared.start w.now) w.events := by
    refine Drive.fatal_expired_iff ?_ ?_ w.drives
    · simp [Prepared.start, Drive.start]
    · simp [Prepared.start, Drive.start_workers]
  unfold outcome
  rw [conclude_failed_iff, hfatal]
  exact ⟨fun h => ⟨h.2, h.1⟩, fun h => ⟨h.flushed, h.first⟩⟩

/-- A run in which the writer lives keeps what the record claims of the old part file. -/
theorem kept (hc : req.completed.Ordered) (hflushed : w.answer.isSome = true) {file : File}
    (hfile : existing = some file) :
    file.len ≤ w.part.len ∧
      ∀ b ∈ req.completed.covered, b < file.len → w.part.data b = file.data b := by
  obtain ⟨ranges, hanswer⟩ := Option.isSome_iff_exists.1 hflushed
  obtain ⟨prepared, hready, now, events, last, hdrives, hleft, env, inbox, hreceived, fin⟩ := w
  obtain ⟨-, rfl⟩ := prepare_eq_ok.1 hready
  subst hfile
  have hlen : (openPart (some file) pr.totalSize).len = max file.len (pr.totalSize.getD 0) :=
    openPart_len _ _
  have hord := ordered_reconcile hc (some file) (openPart (some file) pr.totalSize) pr.totalSize
  have hlinked := Drive.linked hord (Machine.reaches_of_exec hdrives)
  obtain ⟨hgood, -⟩ := finalRanges_spec
    ⟨openPart (some file) pr.totalSize, openPart (some file) pr.totalSize⟩ hord
    (hreceived.within hlinked) rfl hanswer
  constructor
  · refine le_trans ?_ (Disk.len_le_replay _ _)
    exact hlen ▸ le_max_left _ _
  · intro b hb hlt
    -- what is done is not planned, so nobody writes it
    have hnot := Plan.not_mem_cover_new pr.totalSize hord (mem_reconcile hb hlt)
    refine (Disk.replay_data_of_not_mem hgood.clean ?_ fun hw => hnot (hgood.within hw)).trans
      (openPart_data _ hlt)
    exact hlt.trans_le (hlen ▸ le_max_left _ _)

end WorkerRun

/-! ### The command -/

theorem finalStatus_needsAttention_iff {outcome : Except DownloadError File} :
    finalStatus (outcome.map fun _ => ()) = .needsAttention ↔
      outcome = .error (.failed .urlExpired) := by
  cases outcome with
  | ok file => simp [Except.map, finalStatus]
  | error error =>
    cases error with
    | failed error => cases error <;> simp [Except.map, finalStatus]
    | _ => simp [Except.map, finalStatus]

/-- The request that `cmd_resume` hands to `download`. -/
def LinkedRecord.resumeRequest (settings : Settings) (hint : Option HostHint) (r : LinkedRecord) :
    DownloadRequest := (r.toDownloadRecord.resumed settings).request none hint

theorem LinkedRecord.resumeRequest_eq {settings : Settings} {hint : Option HostHint}
    {r : LinkedRecord} {s : Store} {r' : DownloadRecord}
    (hget : s.get r.id = some r.toDownloadRecord) (h : cmdResume settings r.id s = some r') :
    r'.request none hint = r.resumeRequest settings hint := by
  obtain ⟨-, rfl⟩ := (cmdResume_eq_some settings hget).1 h
  rfl

/-- A run of `cmd_resume` for a record that is not complete. -/
inductive ResumeRun (lib : UrlLib) (net : Net) (naming : Naming) (settings : Settings)
    (hint : Option HostHint) (available : ℕ) (existing : Option File) (r : LinkedRecord)
  /-- The probe fails. -/
  | unprobed (error : ProbeError) (traffic : List Exchange)
      (h : (probe lib net naming settings {} false r.currentUrl).runFrom [] =
        (.error error, traffic))
  /-- `download` fails before the workers start, with the part file opened or not. -/
  | unstarted (pr : ProbeDetails) (traffic : List Exchange)
      (h : (probe lib net naming settings {} false r.currentUrl).runFrom [] = (.ok pr, traffic))
      (part : Option File)
      (hpart : part = existing ∨ ∃ total, part = some (openPart existing total))
  | worked (pr : ProbeDetails) (traffic : List Exchange)
      (h : (probe lib net naming settings {} false r.currentUrl).runFrom [] = (.ok pr, traffic))
      (w : WorkerRun settings (r.resumeRequest settings hint) pr.toProbeResult available existing)

namespace ResumeRun

variable {lib : UrlLib} {net : Net} {naming : Naming} {settings : Settings}
  {hint : Option HostHint} {available : ℕ} {existing : Option File} {r : LinkedRecord}
  (run : ResumeRun lib net naming settings hint available existing r)

/-- The requests of the probe. -/
def traffic : List Exchange :=
  match run with
  | unprobed _ traffic _ | unstarted _ traffic _ _ _ | worked _ traffic _ _ => traffic

/-- The outcome of `download`. -/
def outcome : Except DownloadError File :=
  match run with
  | unprobed _ _ _ => .error .probe
  | unstarted _ _ _ _ _ => .error .io
  | worked _ _ _ w => w.outcome

/-- The status that `run` records. -/
def status : DownloadStatus := finalStatus (run.outcome.map fun _ => ())

/-- The class of the error with which `download` ends, inside the error of the probe or not. -/
def verdict : Option ErrorClass :=
  match run with
  | unprobed (.status _ error) _ _ => some error
  | worked _ _ _ w =>
    match w.outcome with
    | .error (.failed error) => some error
    | _ => none
  | _ => none

/-- The part file after the run. -/
def part : Option File :=
  match run with
  | unprobed _ _ _ => existing
  | unstarted _ _ _ part _ => part
  | worked _ _ _ w => some w.part

/-- The writer answers, if there is one. -/
def Flushed : Prop :=
  match run with
  | worked _ _ _ w => w.answer.isSome = true
  | _ => True

/-- A request of the probe is answered 403. -/
def ProbeForbidden : Prop := ∃ x ∈ run.traffic, x.forbidden = true

/-- A request of a worker is answered 403. -/
def WorkersForbidden : Prop :=
  match run with
  | worked _ _ _ w => w.Forbidden
  | _ => False

/-- The 403 of a worker is the first failure that the driver takes notice of. -/
def Noticed : Prop :=
  match run with
  | worked _ _ _ w => w.Noticed
  | _ => False

/-- The part file is there, no shorter than before, and holds what the download resumes from. -/
def Kept : Prop :=
  ∀ file, existing = some file → ∃ part, run.part = some part ∧ file.len ≤ part.len ∧
    ∀ b ∈ (r.resumeRequest settings hint).completed.covered, b < file.len →
      part.data b = file.data b

/-- The expired link is recognised, and the partial is kept. -/
structure Recognised : Prop where
  status : run.status = .needsAttention
  verdict : run.verdict = some .urlExpired
  kept : run.Kept

theorem not_probeForbidden {pr : ProbeDetails} {traffic : List Exchange}
    (h : (probe lib net naming settings {} false r.currentUrl).runFrom [] = (.ok pr, traffic))
    (hrun : run.traffic = traffic) : ¬run.ProbeForbidden := by
  rintro ⟨x, hx, hforbidden⟩
  rw [hrun] at hx
  rw [probe_allowed h x hx] at hforbidden
  cases hforbidden

variable {run}

/-- Whatever happens, the partial is kept as long as the writer lives. -/
theorem kept (hc : r.completedRanges.Ordered) (h : run.Flushed) : run.Kept := by
  intro file hfile
  cases run with
  | unprobed error traffic hp => exact ⟨file, hfile, le_rfl, fun _ _ _ => rfl⟩
  | unstarted pr traffic hp part hpart =>
    rcases hpart with rfl | ⟨total, rfl⟩
    · exact ⟨file, hfile, le_rfl, fun _ _ _ => rfl⟩
    · subst hfile
      refine ⟨_, rfl, ?_, fun b _ hb => openPart_data total hb⟩
      rw [openPart_len]
      exact le_max_left _ _
  | worked pr traffic hp w =>
    obtain ⟨hlen, hdata⟩ := w.kept (DownloadRecord.ordered_resumeState hc _) h hfile
    exact ⟨w.part, rfl, hlen, hdata⟩

/-- The user is asked for a fresh link exactly for one verdict, and only the workers reach it. -/
theorem status_needsAttention_iff : run.status = .needsAttention ↔ run.Noticed := by
  cases run with
  | unprobed error traffic hp => simp [status, outcome, finalStatus_needsAttention_iff, Noticed]
  | unstarted pr traffic hp part hpart =>
    simp [status, outcome, finalStatus_needsAttention_iff, Noticed]
  | worked pr traffic hp w =>
    rw [status, finalStatus_needsAttention_iff]
    exact w.outcome_expired_iff

theorem verdict_expired_iff : run.verdict = some .urlExpired ↔ run.Noticed := by
  cases run with
  | unprobed error traffic hp =>
    have hends : Program.Ends _ _
        ((probe lib net naming settings {} false r.currentUrl).runFrom []) :=
      probe_fresh r.currentUrl [] trivial
    rw [hp] at hends
    refine iff_of_false (fun hverdict => ?_) id
    cases error with
    | status code error =>
      obtain rfl := Option.some.inj hverdict
      cases hends
    | _ => cases hverdict
  | unstarted pr traffic hp part hpart => exact iff_of_false (by simp [verdict]) id
  | worked pr traffic hp w =>
    refine Iff.trans ?_ w.outcome_expired_iff
    simp only [verdict]
    split
    · rename_i error hout
      simp [hout]
    · rename_i hnot
      exact iff_of_false (by simp) (hnot _)

theorem Noticed.recognised (h : run.Noticed) (hc : r.completedRanges.Ordered) :
    run.Recognised := by
  refine ⟨status_needsAttention_iff.2 h, verdict_expired_iff.2 h, kept hc ?_⟩
  cases run with
  | unprobed error traffic hp => exact h.elim
  | unstarted pr traffic hp part hpart => exact h.elim
  | worked pr traffic hp w => exact h.flushed

end ResumeRun

section Command

variable {lib : UrlLib} {net : Net} {naming : Naming} {settings : Settings}
  {hint : Option HostHint} {available : ℕ} {existing : Option File} {r : LinkedRecord}

/-- **When an expired link is recognised.**  In every run of `cmd_resume`: that a 403 anywhere leads
to `needs_attention`, with the verdict `UrlExpired` and the partial kept, is so exactly when the
probe is not answered 403, and a worker's 403 is the first failure that the driver takes notice of
and the writer answers. -/
theorem expiry_recognised_iff (hc : r.completedRanges.Ordered)
    (run : ResumeRun lib net naming settings hint available existing r) :
    (run.ProbeForbidden ∨ run.WorkersForbidden → run.Recognised) ↔
      ¬run.ProbeForbidden ∧ (run.WorkersForbidden → run.Noticed) := by
  constructor
  · intro h
    have hworkers : run.WorkersForbidden → run.Noticed := fun hw =>
      ResumeRun.status_needsAttention_iff.1 (h (.inr hw)).status
    refine ⟨fun hp => ?_, hworkers⟩
    have hnoticed : run.Noticed := ResumeRun.status_needsAttention_iff.1 (h (.inl hp)).status
    cases run with
    | unprobed error traffic hprobe => exact hnoticed
    | unstarted pr traffic hprobe part hpart => exact hnoticed
    | worked pr traffic hprobe w => exact ResumeRun.not_probeForbidden _ hprobe rfl hp
  · rintro ⟨hprobe, hworkers⟩ (hp | hw)
    · exact absurd hp hprobe
    · exact (hworkers hw).recognised hc

/-- A download of four megabytes through a signed link, of which the first two are recorded. -/
def signedLink : LinkedRecord where
  toDownloadRecord := halfDone
  originalUrl := "https://ex.com/f.zip?token=one"
  currentUrl := "https://ex.com/f.zip?token=one"
  finalUrl := "https://ex.com/f.zip?token=one"

/-- A server that answers everyone alike. -/
def constNet (reply : Reply) : Net where
  proxyError _ := none
  buildError _ := none
  answer _ _ := .ok reply
  display kind _ := kind

/-- The link works for the probe. -/
def firstByte : Reply where
  status := 206
  body := [0]
  contentRange := some (.upTo 0 (4 * 1024 * 1024) (by decide))

/-- The link has expired. -/
def forbidden : Reply where
  status := 403
  body := []

/-- Half of the part file is zeros of the preallocation. -/
def halfFile : File := ⟨4 * 1024 * 1024, fun b => if b < 2 * 1024 * 1024 then 7 else 0⟩

/-- What the first worker does until it has told that the link has expired. -/
def expiringWorker : List DriveEvent :=
  [WorkerEvent.build true, .check, .request, .connect, .respond (some forbidden.toResponse),
    .release].map (.worker 0)

/-- What the probe learns. -/
def halfProbe : ProbeResult :=
  { twoBytes with filename := ['f'], totalSize := some (4 * 1024 * 1024) }

/-- What `download` sets up for it. -/
def halfSetUp : Prepared :=
  setUp {} (signedLink.resumeRequest {} none) halfProbe (some halfFile)

theorem exists_expired_run :
    ∃ w : WorkerRun {} (signedLink.resumeRequest {} none) halfProbe (2 ^ 30) (some halfFile),
      w.Forbidden ∧ w.Noticed := by
  have hfirst : ((driveMachine halfSetUp.cfg).exec (halfSetUp.start 0) expiringWorker).map
      Drive.fatal = some none := by
    decide +kernel
  have hrun : ((driveMachine halfSetUp.cfg).exec (halfSetUp.start 0)
      (expiringWorker ++ [.join 0, .tick 0 false, .leave])).map
        (fun d => (d.pc, d.shared.sent)) = some (.left, []) := by
    decide +kernel
  obtain ⟨s, hs, hnone⟩ := Option.map_eq_some_iff.1 hfirst
  obtain ⟨d, hd, hend⟩ := Option.map_eq_some_iff.1 hrun
  obtain ⟨hleft, hsent⟩ := Prod.mk.inj hend
  have hforbidden : Drive.Forbidden 0 expiringWorker :=
    ⟨.respond (some forbidden.toResponse), by simp [expiringWorker], rfl⟩
  obtain ⟨hok, hlog⟩ := Writer.run_finish Env.quiet_calm halfSetUp.completed false
  refine ⟨⟨halfSetUp, prepare_eq_ok.2 ⟨by decide, rfl⟩, 0, _, d, hd, hleft, .calm,
    [⟨.control .finish, false⟩], ⟨[], by simp [hsent], rfl⟩, ⟨fun _ => some [], true⟩⟩,
      ⟨0, ?_⟩, ⟨expiringWorker, 0, _, s, rfl, hs, hnone, hforbidden⟩, ?_⟩
  · obtain ⟨e, he, hf⟩ := hforbidden
    exact ⟨e, List.mem_append_left _ he, hf⟩
  · simp [WorkerRun.answer, WorkerRun.written, finalRanges, hok, hlog]

/-- The link expires between the probe and the first worker. -/
theorem expiry_recognised_late :
    ∃ run : ResumeRun Database.tokenLib (constNet firstByte) (fun _ _ _ => ['f']) {} none (2 ^ 30)
        (some halfFile) signedLink,
      run.WorkersForbidden ∧ run.Recognised := by
  obtain ⟨pr, traffic, hprobe, hpr⟩ : ∃ pr traffic,
      (probe Database.tokenLib (constNet firstByte) (fun _ _ _ => ['f']) {} {} false
        signedLink.currentUrl).runFrom [] = (.ok pr, traffic) ∧
      pr.toProbeResult = halfProbe := ⟨_, _, rfl, rfl⟩
  obtain ⟨w, hforbidden, hnoticed⟩ : ∃ w : WorkerRun {} (signedLink.resumeRequest {} none)
      pr.toProbeResult (2 ^ 30) (some halfFile), w.Forbidden ∧ w.Noticed := by
    rw [hpr]
    exact exists_expired_run
  have hallowed := ResumeRun.not_probeForbidden (.worked pr traffic hprobe w) hprobe rfl
  exact ⟨.worked pr traffic hprobe w, hforbidden,
    (expiry_recognised_iff (by decide) _).2 ⟨hallowed, fun _ => hnoticed⟩ (.inr hforbidden)⟩

/-- **A link that has expired before the command starts is not recognised.** -/
theorem expiry_missed :
    ¬∀ (lib : UrlLib) (net : Net) (naming : Naming) (settings : Settings) (hint : Option HostHint)
      (available : ℕ) (existing : Option File) (r : LinkedRecord)
      (run : ResumeRun lib net naming settings hint available existing r),
      r.completedRanges.Ordered → r.completedRanges.isEmpty = false →
        run.ProbeForbidden ∨ run.WorkersForbidden → run.Recognised := by
  intro h
  have hprobe : (probe Database.tokenLib (constNet forbidden) (fun _ _ _ => ['f']) {} {} false
      signedLink.currentUrl).runFrom [] = (.error (.status 403 .fatal), _) := rfl
  have hrecognised := h _ _ _ _ none (2 ^ 30) (some halfFile) signedLink (.unprobed _ _ hprobe)
    (by decide) (by decide) (.inl ⟨_, List.mem_singleton_self _, rfl⟩)
  cases hrecognised.status

end Command

end SwiftLoad
