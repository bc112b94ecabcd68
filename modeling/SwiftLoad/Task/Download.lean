import SwiftLoad.Task.Ownership
import SwiftLoad.Task.Writer

/-!
# One download

`download` of `task/mod.rs`, from a successful probe on: reconcile the checkpoint with the part
file, plan, run the workers and the writer, and publish the file.

* `prepare` : everything before the workers start.
* `conclude` : everything after they have stopped.
* `Downloads` : the runs of `download`, with what the writer did and how they end.
* `reconcile_trusts_file_iff` : **when the reconciled set stays within the old part file.**
* `published_len`, `published_size_iff` : **when the published file has the right size.**
-/

namespace SwiftLoad

open Ranges

/-- Extra headroom demanded on top of the file size. -/
def freeSpaceMargin : ℕ := 100 * 1024 * 1024

/-- `DownloadRequest`: what the engine decides by. -/
structure DownloadRequest where
  destDir : Path
  /-- Override the server-supplied name. -/
  filename : Option Name := none
  /-- `none` lets the governor decide. -/
  maxConns : Option ℕ := none
  /-- Resume state from a previous session. -/
  completed : RangeSet := .new
  /-- Verify the finished file against this. -/
  expectedSha256 : Option Name := none
  hostHint : Option HostHint := none

/-- `DownloadError`. -/
inductive DownloadError
  | probe
  | io
  | failed (error : ErrorClass)
  | incomplete (done total gaps : ℕ)
  | checksumMismatch (expected actual : Name)
  | cancelled
deriving DecidableEq

/-- The length of a file that may be missing. -/
def fileLen (file : Option File) : ℕ := file.elim 0 File.len

/-- `ensure_space`: room for `needed` bytes plus a margin. -/
def ensureSpace (available needed : ℕ) : Bool := decide (satAdd needed freeSpaceMargin ≤ available)

/-- Where the data of a request lands. -/
def partFile (destDir : Path) (filename : Name) : Except DownloadError Path :=
  match Filename.resolveDestination destDir filename with
  | .error _ => .error .io
  | .ok dest => .ok (Filename.partPath destDir (Filename.fileName dest))

/-- Reconcile the checkpoint against reality; `file` is the part file as `open_part` left it. -/
def reconcile (completed : RangeSet) (existing : Option File) (file : File) (total : Option ℕ) :
    RangeSet :=
  if existing.isNone = true ∧ completed.isEmpty = false then
    -- the record claims progress for a file that is not there
    .new
  else
    match total with
    | none => completed.truncateTo file.len
    | some _ => completed

/-- What `download` has set up before the workers start. -/
structure Prepared where
  /-- The part file. -/
  file : File
  /-- What the planner and the writer take as done. -/
  completed : RangeSet
  /-- The starting connection count. -/
  k0 : ℕ
  plan : Plan
  govCfg : GovernorConfig
  cfg : DriveCfg

/-- What `download` sets up once nothing stands in the way. -/
def setUp (settings : Settings) (req : DownloadRequest) (pr : ProbeResult)
    (existing : Option File) : Prepared :=
  let file := openPart existing pr.totalSize
  let completed := reconcile req.completed existing file pr.totalSize
  let k0 := initialConns pr settings req.maxConns req.hostHint
  { file := file
    completed := completed
    k0 := k0
    plan := (Plan.new pr.totalSize completed).seed k0
    govCfg := { maxConns := min (req.maxConns.getD settings.maxConnsPerDownload) 32 }
    cfg :=
      { ctx :=
          { rangeSupport := pr.rangeSupport
            total := pr.totalSize
            maxRetries := settings.maxRetriesPerSegment }
        -- a fixed connection count was requested explicitly, so do not adapt away from it
        adaptive := settings.adaptiveConcurrency && req.maxConns.isNone
        initialBytes := completed.total } }

/-- The volume cannot hold a file of known size: there is no room for what is missing of it, or
`open_part` cannot extend the part file that far. -/
def noRoom (req : DownloadRequest) (pr : ProbeResult) (available : ℕ) : Bool :=
  pr.totalSize.any fun total =>
    !ensureSpace available (total - req.completed.total) || decide (maxFileLen < total)

/-- `download` up to the start of the workers.  `available` is the free space. -/
def prepare (settings : Settings) (req : DownloadRequest) (pr : ProbeResult) (available : ℕ)
    (existing : Option File) : Except DownloadError Prepared :=
  match partFile req.destDir (req.filename.getD pr.filename) with
  | .error error => .error error
  | .ok _ =>
    -- fail now rather than at 90%
    if noRoom req pr available then .error .io else .ok (setUp settings req pr existing)

/-- The state in which `drive` enters its loop. -/
def Prepared.start (p : Prepared) (now : Nanos) : Drive := .start p.plan p.govCfg p.k0 now

/-- The answer to the `Finish` message, with which the log of a writer that lives ends. -/
def finalRanges (r : Except WriterError RangeSet × WriterState) : Option RangeSet :=
  match r.1, r.2.log.getLast? with
  | .ok _, some (.reply ranges) => ranges
  | _, _ => none

/-- The outcomes of the system calls after the download. -/
structure Finale where
  /-- `hash_file`. -/
  hash : File → Option Name
  /-- `finalize` renames the part file. -/
  renamed : Bool

/-- Hash the part file when that is asked for, and compare; `none` when nothing is wrong. -/
def checksum (settings : Settings) (req : DownloadRequest) (fin : Finale) (part : File) :
    Option DownloadError :=
  if settings.hashOnComplete = true ∨ req.expectedSha256.isSome = true then
    match fin.hash part, req.expectedSha256 with
    | none, _ => some .io
    | some _, none => none
    | some actual, some expected =>
      if expected.map Char.toLower = actual.map Char.toLower then none
      else some (.checksumMismatch expected actual)
  else none

/-- `download` after the workers have stopped: verify completion and publish.  `part` is the part
file, which becomes the published file. -/
def conclude (settings : Settings) (req : DownloadRequest) (pr : ProbeResult) (fin : Finale)
    (d : Drive) (answer : Option RangeSet) (part : File) : Except DownloadError File :=
  match answer with
  | none => .error .io
  | some ranges =>
    match d.fatal with
    | some error => .error (.failed error)
    | none =>
      if d.cancelled then .error .cancelled
      -- check coverage, not just the byte counter
      else if pr.totalSize.any fun total => !ranges.containsAll 0 total then
        .error (.incomplete ranges.total (pr.totalSize.getD 0)
          (ranges.gapsIn 0 (pr.totalSize.getD 0)).length)
      else
        match checksum settings req fin part with
        | some error => .error error
        | none => if fin.renamed then .ok part else .error .io

/-- The messages the writer receives: the data, then `Finish`.  A worker that waits for room in the
queue may be overtaken by others. -/
def Inbox (d : Drive) (inbox : List Queued) : Prop :=
  ∃ sends : List (ℕ × List UInt8), sends.Perm d.shared.sent ∧
    inbox.map Queued.msg = sends.map (fun m => WriteMsg.data m.1 m.2) ++ [.control .finish]

/-- The runs of `download` after a successful probe: what the writer did and how the run ends. -/
inductive Downloads (settings : Settings) (req : DownloadRequest) (pr : ProbeResult)
    (available : ℕ) (existing : Option File) :
    Option RangeSet → List IoEvent → Except DownloadError File → Prop
  | refused {error : DownloadError}
      (h : prepare settings req pr available existing = .error error) :
      Downloads settings req pr available existing none [] (.error error)
  /-- `ensure_space` or `open_part` fails for another reason. -/
  | failed : Downloads settings req pr available existing none [] (.error .io)
  | ran {p : Prepared} (h : prepare settings req pr available existing = .ok p) (now : Nanos)
      {d : Drive} (hd : (driveMachine p.cfg).Reaches (p.start now) d) (hleft : d.pc = .left)
      (env : Env) {inbox : List Queued} (hinbox : Inbox d inbox) (fin : Finale)
      {r : Except WriterError RangeSet × WriterState} (hr : Writer.run env p.completed inbox = r) :
      Downloads settings req pr available existing (finalRanges r) r.2.log
        (conclude settings req pr fin d (finalRanges r)
          ((⟨p.file, p.file⟩ : Disk).replay r.2.log).volatile)

section Prepare

variable {settings : Settings} {req : DownloadRequest} {pr : ProbeResult} {available : ℕ}
  {existing : Option File} {p : Prepared}

theorem partFile_eq (destDir : Path) (filename : Name) :
    partFile destDir filename =
      .ok (Filename.partPath destDir (Filename.sanitize filename)) := by
  rw [partFile, Filename.resolveDestination_eq]
  simp only [Filename.fileName_append]

theorem prepare_eq_ok :
    prepare settings req pr available existing = .ok p ↔
      noRoom req pr available = false ∧ p = setUp settings req pr existing := by
  have hpart := partFile_eq req.destDir (req.filename.getD pr.filename)
  unfold prepare
  rw [hpart]
  cases noRoom req pr available with
  | true => simp
  | false => simp [eq_comm]

theorem ordered_reconcile {completed : RangeSet} (h : completed.Ordered) (existing : Option File)
    (file : File) (total : Option ℕ) : (reconcile completed existing file total).Ordered := by
  unfold reconcile
  split_ifs
  · exact RangeSet.ordered_new
  · cases total with
    | none => exact RangeSet.ordered_truncateTo h _
    | some t => exact h

theorem reconcile_unknown {completed : RangeSet} (existing : Option File) {b : ℕ}
    (hb : b ∈ (reconcile completed existing (openPart existing none) none).covered) :
    b < fileLen existing := by
  unfold reconcile at hb
  split_ifs at hb
  · simp at hb
  · rw [RangeSet.covered_truncateTo] at hb
    have hlt : b < (openPart existing none).len := hb.2
    rwa [openPart_len, Option.getD_none, Nat.max_zero] at hlt

/-- What the record claims of an old part file is taken as done as far as the file reaches. -/
theorem mem_reconcile {completed : RangeSet} {file : File} {total : Option ℕ} {b : ℕ}
    (hb : b ∈ completed.covered) (hlt : b < file.len) :
    b ∈ (reconcile completed (some file) (openPart (some file) total) total).covered := by
  unfold reconcile
  rw [if_neg (by simp)]
  cases total with
  | some total => exact hb
  | none =>
    rw [RangeSet.covered_truncateTo]
    exact ⟨hb, hlt⟩

/-- **Trust the file, never the record.**  The set that the planner and the writer take as done
stays within the part file as it was before it was opened, exactly when there was none, or the size
is unknown, or the record claims nothing beyond it. -/
theorem reconcile_trusts_file_iff (hc : req.completed.Ordered)
    (h : prepare settings req pr available existing = .ok p) :
    (∀ b ∈ p.completed.covered, b < fileLen existing) ↔
      existing = none ∨ pr.totalSize = none ∨
        ∀ b ∈ req.completed.covered, b < fileLen existing := by
  obtain ⟨-, rfl⟩ := prepare_eq_ok.1 h
  show (∀ b ∈ (reconcile req.completed existing (openPart existing pr.totalSize)
    pr.totalSize).covered, b < fileLen existing) ↔ _
  cases htotal : pr.totalSize with
  | none => simpa using fun b hb => reconcile_unknown existing hb
  | some total =>
    cases existing with
    | none =>
      by_cases hempty : req.completed.isEmpty = true
      · have := (RangeSet.isEmpty_iff hc).1 hempty
        simp [reconcile, hempty, this]
      · simp [reconcile, hempty]
    | some file => simp [reconcile]

/-- A file of two bytes. -/
def twoBytes : ProbeResult where
  filename := ['a']
  totalSize := some 2
  rangeSupport := .supported
  transformingEncoding := false

/-- A record of one byte and a part file of one byte agree. -/
theorem reconcile_trusts_file_short :
    prepare {} { destDir := [], completed := ⟨[(0, 1)]⟩ } twoBytes (2 ^ 30)
        (some ⟨1, fun _ => 7⟩) = .ok (setUp {} { destDir := [], completed := ⟨[(0, 1)]⟩ } twoBytes
          (some ⟨1, fun _ => 7⟩)) ∧
      ∀ b ∈ (setUp {} { destDir := [], completed := ⟨[(0, 1)]⟩ } twoBytes
        (some ⟨1, fun _ => 7⟩)).completed.covered, b < 1 := by
  have h : prepare {} { destDir := [], completed := ⟨[(0, 1)]⟩ } twoBytes (2 ^ 30)
      (some ⟨1, fun _ => 7⟩) = .ok (setUp {} { destDir := [], completed := ⟨[(0, 1)]⟩ } twoBytes
        (some ⟨1, fun _ => 7⟩)) := prepare_eq_ok.2 ⟨by decide, rfl⟩
  refine ⟨h, (reconcile_trusts_file_iff (by decide) h).2 (Or.inr (Or.inr ?_))⟩
  simp [RangeSet.covered, fileLen]

/-- A part file that was cut to one byte, while the record claims two: the second byte is taken as
done, although it is a zero of the preallocation. -/
theorem reconcile_trusts_record :
    ∃ p, prepare {} { destDir := [], completed := ⟨[(0, 2)]⟩ } twoBytes (2 ^ 30)
        (some ⟨1, fun _ => 7⟩) = .ok p ∧
      1 ∈ p.completed.covered ∧ fileLen (some ⟨1, fun _ => 7⟩) = 1 ∧ p.file.data 1 = 0 :=
  ⟨_, prepare_eq_ok.2 ⟨by decide, rfl⟩, ⟨(0, 2), List.mem_singleton.2 rfl, by decide, by decide⟩,
    rfl, rfl⟩

end Prepare

/-! ### The published file -/

section Publish

variable {settings : Settings} {req : DownloadRequest} {pr : ProbeResult} {available : ℕ}
  {existing : Option File} {answer : Option RangeSet} {log : List IoEvent} {file : File}

theorem conclude_eq_ok {fin : Finale} {d : Drive} {part : File}
    (h : conclude settings req pr fin d answer part = .ok file) :
    file = part ∧ d.fatal = none ∧ d.cancelled = false ∧ ∃ ranges, answer = some ranges ∧
      ∀ total, pr.totalSize = some total → ranges.containsAll 0 total = true := by
  unfold conclude at h
  cases answer with
  | none => simp at h
  | some ranges =>
    cases hfatal : d.fatal with
    | some error => simp [hfatal] at h
    | none =>
      cases hsum : checksum settings req fin part with
      | some error =>
        simp only [hfatal, hsum] at h
        split_ifs at h
      | none =>
        simp only [hfatal, hsum] at h
        split_ifs at h with hcancelled hcover
        refine ⟨(Except.ok.inj h).symm, rfl, by simpa using hcancelled, ranges, rfl, ?_⟩
        intro total htotal
        simpa [htotal] using hcover

/-- The failure of a worker is what a download ends with exactly when the driver has noticed it
and the writer answers. -/
theorem conclude_failed_iff {fin : Finale} {d : Drive} {part : File} {error : ErrorClass} :
    conclude settings req pr fin d answer part = .error (.failed error) ↔
      answer.isSome = true ∧ d.fatal = some error := by
  have hsum : checksum settings req fin part ≠ some (.failed error) := by
    unfold checksum
    split_ifs
    · cases fin.hash part <;> cases req.expectedSha256 <;> simp
    · simp
  unfold conclude
  cases answer with
  | none => simp
  | some ranges =>
    cases hfatal : d.fatal with
    | some error' => simp
    | none =>
      dsimp only
      generalize checksum settings req fin part = sum at hsum
      cases sum with
      | some error' =>
        have hne : error' ≠ .failed error := fun h => hsum (by rw [h])
        split_ifs <;> simp [hne]
      | none => split_ifs <;> simp

theorem finalRanges_spec {env : Env} (disk : Disk) {initial ranges : RangeSet} {M : Set ℕ}
    {inbox : List Queued} (hi : initial.Ordered) (hM : ∀ q ∈ inbox, q.msg.Within M)
    {r : Except WriterError RangeSet × WriterState} (hr : Writer.run env initial inbox = r)
    (h : finalRanges r = some ranges) :
    r.2.Good disk initial M ∧ ranges = r.2.done := by
  have hends := Writer.run_spec env disk hi hM
  rw [hr] at hends
  obtain ⟨result, w⟩ := r
  cases result with
  | error e => simp [finalRanges] at h
  | ok ranges' =>
    refine ⟨hends.1, hends.1.replied ranges ?_⟩
    unfold finalRanges at h
    dsimp only at h
    split at h
    · rename_i heq
      rw [heq, h]
    · simp at h

theorem Inbox.within {d : Drive} {inbox : List Queued} {work : Set ℕ} (h : Inbox d inbox)
    (hd : d.Linked work) : ∀ q ∈ inbox, q.msg.Within work := by
  intro q hq
  obtain ⟨sends, hperm, hmsgs⟩ := h
  have hmem : q.msg ∈ inbox.map Queued.msg := List.mem_map_of_mem hq
  rw [hmsgs] at hmem
  rcases List.mem_append.1 hmem with hmem | hmem
  · obtain ⟨m, hm, hqm⟩ := List.mem_map.1 hmem
    rw [← hqm]
    exact hd.sent_subset (hperm.mem_iff.1 hm)
  · rw [List.mem_singleton.1 hmem]
    trivial

/-- The length of a published file: `open_part` only extends, and nothing cuts it afterwards. -/
theorem published_len (hc : req.completed.Ordered)
    (h : Downloads settings req pr available existing answer log (.ok file)) :
    ∃ ranges, answer = some ranges ∧
      file.len = max (fileLen existing) (pr.totalSize.getD ranges.endPos) := by
  generalize hout : (Except.ok file : Except DownloadError File) = out at h
  cases h with
  | refused h => simp at hout
  | failed => simp at hout
  | @ran p hp now d hd hleft env inbox hinbox fin r hr =>
    obtain ⟨rfl, -, -, ranges, hanswer, -⟩ := conclude_eq_ok hout.symm
    obtain ⟨-, rfl⟩ := prepare_eq_ok.1 hp
    have hord : (setUp settings req pr existing).completed.Ordered :=
      ordered_reconcile hc existing (openPart existing pr.totalSize) pr.totalSize
    have hopen : (setUp settings req pr existing).file.len =
        max (fileLen existing) (pr.totalSize.getD 0) := openPart_len existing pr.totalSize
    have hlinked : d.Linked
        (cover (Plan.new pr.totalSize (setUp settings req pr existing).completed).ranges) :=
      Drive.linked hord hd
    have hunknown : pr.totalSize = none →
        ∀ b ∈ (setUp settings req pr existing).completed.covered, b < fileLen existing := by
      intro hnone b hb
      change b ∈ (reconcile req.completed existing (openPart existing pr.totalSize)
        pr.totalSize).covered at hb
      rw [hnone] at hb
      exact reconcile_unknown existing hb
    generalize (setUp settings req pr existing).file = part at hopen ⊢
    generalize (setUp settings req pr existing).completed = completed at hord hlinked hunknown hr
    obtain ⟨hgood, rfl⟩ := finalRanges_spec ⟨part, part⟩ hord (hinbox.within hlinked) hr hanswer
    have hle := Disk.len_le_replay ⟨part, part⟩ r.2.log
    refine ⟨r.2.done, hanswer, ?_⟩
    cases htotal : pr.totalSize with
    | some total =>
      -- the writes stay within the size that the plan was made for
      rw [htotal, Plan.cover_ranges_new total hord] at hlinked
      have hwithin := finalRanges_spec ⟨part, part⟩ hord (hinbox.within hlinked) hr hanswer
      have hge := Disk.replay_len_le (d := ⟨part, part⟩) hgood.clean fun b hb =>
        (hwithin.1.within hb).1
      rw [htotal, Option.getD_some] at hopen
      simp only [Option.getD_some] at hle hge ⊢
      omega
    | none =>
      have hge := Disk.replay_len_le (d := ⟨part, part⟩) hgood.clean fun b hb =>
        RangeSet.lt_endPos hgood.ordered (hgood.recorded hb)
      -- the last byte that is done was there before or has been written
      have hend : r.2.done.endPos ≤
          max (fileLen existing) ((⟨part, part⟩ : Disk).replay r.2.log).volatile.len := by
        by_cases hpos : 0 < r.2.done.endPos
        · have hlast := RangeSet.pred_endPos_mem hgood.ordered hpos
          by_cases hold : r.2.done.endPos - 1 ∈ completed.covered
          · have := hunknown htotal _ hold
            omega
          · obtain ⟨v, hv⟩ := hgood.written _ hlast hold
            have := (volatile_of_lastWritten (d := ⟨part, part⟩) hgood.clean hv).2
            omega
        · omega
      rw [htotal, Option.getD_none, Nat.max_zero] at hopen
      simp only [Option.getD_none] at hle hge ⊢
      omega

/-- **The published size.**  A file of known size is published with that size exactly when the
part file was no longer before, and a file of unknown size ends where the received bytes end
exactly when the part file did not reach further. -/
theorem published_size_iff (hc : req.completed.Ordered)
    (h : Downloads settings req pr available existing answer log (.ok file)) :
    (∀ total, pr.totalSize = some total → (file.len = total ↔ fileLen existing ≤ total)) ∧
      (pr.totalSize = none → ∃ ranges, answer = some ranges ∧
        (file.len = ranges.endPos ↔ fileLen existing ≤ ranges.endPos)) := by
  obtain ⟨ranges, hanswer, hlen⟩ := published_len hc h
  refine ⟨?_, fun hnone => ⟨ranges, hanswer, ?_⟩⟩
  · intro total htotal
    rw [hlen, htotal, Option.getD_some]
    exact max_eq_right_iff
  · rw [hlen, hnone, Option.getD_none]
    exact max_eq_right_iff

/-- The whole of it as one response. -/
def twoBytesRange : ContentRange := ⟨0, 1, some 2, by decide, by simp⟩

/-- A download of the two bytes by one worker, whatever part file it finds. -/
theorem downloads_twoBytes (existing : Option File) :
    ∃ log file, Downloads {} { destDir := [] } twoBytes (2 ^ 30) existing (some ⟨[(0, 2)]⟩) log
      (.ok file) := by
  have hrun : (((driveMachine (setUp {} { destDir := [] } twoBytes none).cfg).exec
      ((setUp {} { destDir := [] } twoBytes none).start 0)
      ([WorkerEvent.build true, .check, .request, .connect,
        .respond (some { status := 206, contentRange := some twoBytesRange, body := [1, 2] }),
        .proceed, .poll (.chunk 2 false), .advance, .proceed, .poll .ended, .release, .check,
        .request].map (.worker 0) ++ [.join 0, .leave])).map fun d =>
          (d.pc, d.fatal.isNone && !d.cancelled, d.shared.sent)) =
        some (.left, true, [(0, [1, 2])]) := by
    decide +kernel
  obtain ⟨d, hd, hend⟩ := Option.map_eq_some_iff.1 hrun
  simp only [Prod.mk.injEq, Bool.and_eq_true, Option.isNone_iff_eq_none, Bool.not_eq_true'] at hend
  obtain ⟨hleft, ⟨hfatal, hcancelled⟩, hsent⟩ := hend
  -- an old part file changes nothing but the file that is opened
  have hrec : reconcile .new existing (openPart existing (some 2)) (some 2) = .new := by
    unfold reconcile
    split_ifs <;> rfl
  have hset : setUp {} { destDir := [] } twoBytes existing =
      { setUp {} { destDir := [] } twoBytes none with file := openPart existing (some 2) } := by
    simp only [setUp, twoBytes, hrec]
    rfl
  have hanswer : finalRanges (Writer.run .calm .new [⟨.data 0 [1, 2], false⟩,
      ⟨.control .finish, false⟩]) = some ⟨[(0, 2)]⟩ := by
    decide +kernel
  have hconclude : ∀ part, conclude {} { destDir := [] } twoBytes ⟨fun _ => some [], true⟩ d
      (some ⟨[(0, 2)]⟩) part = .ok part := by
    intro part
    simp [conclude, hfatal, hcancelled, twoBytes, checksum, RangeSet.containsAll]
  have hdl := @Downloads.ran {} { destDir := [] } twoBytes (2 ^ 30) existing _
    (prepare_eq_ok.2 ⟨by decide, hset.symm⟩) 0 d (Machine.reaches_of_exec hd) hleft .calm
    [⟨.data 0 [1, 2], false⟩, ⟨.control .finish, false⟩] ⟨_, .refl _, by simp [hsent]⟩
    ⟨fun _ => some [], true⟩ _ rfl
  rw [show (setUp {} { destDir := [] } twoBytes none).completed = .new from rfl, hanswer,
    hconclude] at hdl
  exact ⟨_, _, hdl⟩

/-- Nothing lies in the way, and two bytes are published. -/
theorem published_size_fresh :
    ∃ log file, Downloads {} { destDir := [] } twoBytes (2 ^ 30) none (some ⟨[(0, 2)]⟩) log
      (.ok file) ∧ file.len = 2 := by
  obtain ⟨log, file, h⟩ := downloads_twoBytes none
  exact ⟨log, file, h, ((published_size_iff RangeSet.ordered_new h).1 2 rfl).2 (by decide)⟩

/-- An older part file of five bytes lies in the way, and its tail is published with the file. -/
theorem published_stale_tail :
    ∃ log file, Downloads {} { destDir := [] } twoBytes (2 ^ 30) (some ⟨5, fun _ => 9⟩)
      (some ⟨[(0, 2)]⟩) log (.ok file) ∧ file.len = 5 := by
  obtain ⟨log, file, h⟩ := downloads_twoBytes (some ⟨5, fun _ => 9⟩)
  obtain ⟨ranges, -, hlen⟩ := published_len RangeSet.ordered_new h
  exact ⟨log, file, h, hlen⟩

end Publish

end SwiftLoad
