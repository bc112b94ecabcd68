import SwiftLoad.Publishing.Collision
import SwiftLoad.Store.Basic
import SwiftLoad.Task.Download

/-!
# The commands of the CLI

`main.rs` of `swiftload-cli`: `get`, `resume` and what they share (`run`).  A command is a process
that writes to the store and to files until it ends or is killed; commands run one after the other,
each in a working directory of its own, where relative paths start.  Different paths may denote one
file: `locate` says which file a path stands for in a directory.

* `DownloadRecord.publish_moved` : publishing a download renames its part file to `finalFile`.
* `CliState.Stepped` : the outcomes of a step; `CliState.stepped` : there are no others.
* `CliState.files_of_step` : a step changes no file but those it works on.
-/

namespace SwiftLoad

/-- The arguments of `get`, its new id, and what its probe found. -/
structure GetCmd where
  id : ℕ
  /-- The working directory. -/
  here : List Name := []
  out : Path
  name : Option Name := none
  maxConns : Option ℕ := none
  pr : ProbeResult
  /-- `pr.identity_hint()`. -/
  hint : Name := []

namespace GetCmd

/-- The record that `cmd_get` inserts. -/
def record (g : GetCmd) : DownloadRecord where
  id := g.id
  identityHint := g.hint
  filename := g.name.getD g.pr.filename
  destDir := g.out
  totalSize := g.pr.totalSize
  maxConnections := g.maxConns

/-- The incomplete downloads that `cmd_get` mentions before it goes on. -/
def notes (g : GetCmd) (s : Store) : List DownloadRecord :=
  (s.findResumableByHint g.hint).filter fun r => decide (0 < r.bytesDone)

/-- A record that a crash has left `active` is not mentioned. -/
theorem status_of_mem_notes {g : GetCmd} {s : Store} {r : DownloadRecord} (h : r ∈ g.notes s) :
    r.status ≠ .active ∧ r.status ≠ .completed := by
  have hfound := (List.mem_filter.1 (List.mem_filter.1 h).1).2
  have hstatus := of_decide_eq_true (Bool.and_eq_true_iff.1 hfound).2
  constructor <;> intro heq <;> rw [heq] at hstatus <;> exact absurd hstatus (by decide)

end GetCmd

namespace DownloadRecord

/-- The record that `cmd_resume` hands to `run`: it starts from `resume_state`. -/
def resumed (settings : Settings) (r : DownloadRecord) : DownloadRecord :=
  { r with completedRanges := (r.resumeState settings.paranoidRecovery).1 }

/-- The request that `run` makes of a record. -/
def request (expectedSha256 : Option Name) (hint : Option HostHint) (r : DownloadRecord) :
    DownloadRequest where
  destDir := r.destDir
  filename := some r.filename
  maxConns := r.maxConnections
  completed := r.completedRanges
  expectedSha256 := expectedSha256
  hostHint := hint

/-- The part file that `download` opens for a record. -/
def partFile (r : DownloadRecord) : Path :=
  Filename.partPath r.destDir (Filename.sanitize r.filename)

theorem partFile_request (r : DownloadRecord) (expectedSha256 : Option Name)
    (hint : Option HostHint) (pr : ProbeResult) :
    SwiftLoad.partFile (r.request expectedSha256 hint).destDir
      ((r.request expectedSha256 hint).filename.getD pr.filename) = .ok r.partFile :=
  partFile_eq _ _

/-- The name that a download is published under, when `seen` is what the looks at the names say. -/
def finalFile (seen : Name → Bool) (uuid : Name) (r : DownloadRecord) : Path :=
  Filename.join (Filename.normalizeLexically r.destDir)
    (Publishing.freeName seen uuid (Filename.sanitize r.filename))

/-- A publishing that succeeds renames the part file to `finalFile`, whatever failed on the way. -/
theorem publish_moved {γ : Type} {fs fs' : Publishing.FileSystem γ} {here : List Name}
    {r : DownloadRecord} {content : γ} {uuid : Name} {faults : ℕ → Fault} {final : Path}
    (hpart : fs (Publishing.locate here r.partFile) = some (.file content))
    (hrun : (Publishing.publish here r.destDir r.filename .rename uuid).under fs faults =
      (.ok final, fs')) :
    ∃ seen, final = r.finalFile seen uuid ∧ fs' = Publishing.moved
      (Publishing.locate here r.partFile) (Publishing.locate here final) fs := by
  obtain ⟨seen, -, hfinal, hmoved⟩ := Publishing.publish_moved hpart hrun
  exact ⟨seen, hfinal, hmoved⟩

end DownloadRecord

/-- `cmd_resume` up to `run`: the record to run, unless there is none or it is complete. -/
def cmdResume (settings : Settings) (id : ℕ) (s : Store) : Option DownloadRecord :=
  (s.get id).bind fun r => if r.status = .completed then none else some (r.resumed settings)

/-- The status that `run` records for an outcome of `download`. -/
def finalStatus : Except DownloadError Unit → DownloadStatus
  | .ok _ => .completed
  | .error .cancelled => .paused
  | .error (.failed .urlExpired) => .needsAttention
  | .error _ => .failed

/-- How far `run` has come. -/
inductive RunPhase
  | begun
  /-- The status is `active`, and `download` runs. -/
  | active
  /-- The final status is recorded. -/
  | settled
deriving DecidableEq, Repr

/-- A command in `run`, with the record it was given and its working directory. -/
structure CliProcess where
  record : DownloadRecord
  phase : RunPhase
  here : List Name
deriving DecidableEq

/-- The database, the file system and the command that runs. -/
structure CliState (κ : Type) where
  store : Store
  files : κ → Option File
  process : Option CliProcess

/-- What can happen. -/
inductive CliEvent
  /-- A command that gets no further than `open_store`. -/
  | openStore
  | get (g : GetCmd)
  | resume (settings : Settings) (id : ℕ) (here : List Name)
  /-- `run` sets the status to `active`. -/
  | activate
  /-- `download` opens the part file. -/
  | openPart (total : Option ℕ)
  | write (offset : ℕ) (bytes : List UInt8)
  | checkpoint (ranges : RangeSet) (bytesDone : ℕ)
  /-- `download` renames the part file, under the first name that is not `seen`. -/
  | publish (seen : Name → Bool) (uuid : Name)
  /-- `run` records how `download` ended. -/
  | settle (outcome : Except DownloadError Unit)
  | markClean
  /-- The process is killed, or a statement fails and the command returns. -/
  | kill

namespace CliState

variable {κ : Type} [DecidableEq κ] (locate : List Name → Path → κ)

/-- The effect of a running download on its part file. -/
def touch (f : Option File → Option File) (s : CliState κ) : Option (CliState κ) :=
  match s.process with
  | some ⟨r, .active, here⟩ =>
    some { s with files :=
      Function.update s.files (locate here r.partFile) (f (s.files (locate here r.partFile))) }
  | _ => none

/-- The part file becomes the file `final`, and what was there is gone. -/
def rename (part final : κ) (s : CliState κ) : Option (CliState κ) :=
  (s.files part).map fun file =>
    { s with files := Function.update (Function.update s.files part none) final (some file) }

/-- One step of a command. -/
def step (s : CliState κ) : CliEvent → Option (CliState κ)
  | .openStore =>
    if s.process.isSome then none else some { s with store := s.store.clearCleanFlags }
  | .get g =>
    if s.process.isSome then none
    else (s.store.clearCleanFlags.insert g.record).map fun store =>
      { s with store := store, process := some ⟨g.record, .begun, g.here⟩ }
  | .resume settings id here =>
    if s.process.isSome then none
    else (cmdResume settings id s.store.clearCleanFlags).map fun r =>
      { s with store := s.store.clearCleanFlags, process := some ⟨r, .begun, here⟩ }
  | .activate =>
    match s.process with
    | some ⟨r, .begun, here⟩ =>
      some { s with
        store := s.store.update r.id (DownloadRecord.setStatus .active)
        process := some ⟨r, .active, here⟩ }
    | _ => none
  | .openPart total => s.touch locate fun file => some (SwiftLoad.openPart file total)
  | .write offset bytes => s.touch locate fun file => file.map (File.put offset bytes)
  | .checkpoint ranges bytesDone =>
    match s.process with
    | some ⟨r, .active, _⟩ =>
      (s.store.checkpoint r.id ranges bytesDone).map fun store => { s with store := store }
    | _ => none
  | .publish seen uuid =>
    match s.process with
    | some ⟨r, .active, here⟩ =>
      s.rename (locate here r.partFile) (locate here (r.finalFile seen uuid))
    | _ => none
  | .settle outcome =>
    match s.process with
    | some ⟨r, .active, here⟩ =>
      some { s with
        store := s.store.update r.id (DownloadRecord.setStatus (finalStatus outcome))
        process := some ⟨r, .settled, here⟩ }
    | _ => none
  | .markClean =>
    match s.process with
    | some ⟨r, .settled, _⟩ =>
      some { s with
        store := s.store.update r.id (DownloadRecord.markClean true)
        process := none }
    | _ => none
  | .kill => s.process.map fun _ => { s with process := none }

/-- The outcomes of a step. -/
inductive Stepped (s : CliState κ) : CliEvent → CliState κ → Prop
  | opens (hidle : s.process = none) :
      Stepped s .openStore { s with store := s.store.clearCleanFlags }
  | gets (g : GetCmd) (store : Store) (hidle : s.process = none)
      (hins : s.store.clearCleanFlags.insert g.record = some store) :
      Stepped s (.get g) { s with store := store, process := some ⟨g.record, .begun, g.here⟩ }
  | resumes (settings : Settings) (id : ℕ) (here : List Name) (r : DownloadRecord)
      (hidle : s.process = none) (hget : s.store.clearCleanFlags.get id = some r)
      (hopen : r.status ≠ .completed) :
      Stepped s (.resume settings id here) { s with
        store := s.store.clearCleanFlags
        process := some ⟨r.resumed settings, .begun, here⟩ }
  | activates (r : DownloadRecord) (here : List Name) (hp : s.process = some ⟨r, .begun, here⟩) :
      Stepped s .activate { s with
        store := s.store.update r.id (DownloadRecord.setStatus .active)
        process := some ⟨r, .active, here⟩ }
  /-- A step that works on the part file does nothing else. -/
  | touches (e : CliEvent) (r : DownloadRecord) (here : List Name) (file : Option File)
      (he : (∃ total, e = .openPart total) ∨ ∃ offset bytes, e = .write offset bytes)
      (hp : s.process = some ⟨r, .active, here⟩) :
      Stepped s e { s with files := Function.update s.files (locate here r.partFile) file }
  | publishes (seen : Name → Bool) (uuid : Name) (r : DownloadRecord) (here : List Name)
      (file : File) (hp : s.process = some ⟨r, .active, here⟩)
      (hfile : s.files (locate here r.partFile) = some file) :
      Stepped s (.publish seen uuid) { s with
        files := Function.update (Function.update s.files (locate here r.partFile) none)
          (locate here (r.finalFile seen uuid)) (some file) }
  | checkpoints (ranges : RangeSet) (bytesDone : ℕ) (r : DownloadRecord) (here : List Name)
      (hp : s.process = some ⟨r, .active, here⟩) :
      Stepped s (.checkpoint ranges bytesDone)
        { s with store := s.store.update r.id (DownloadRecord.checkpoint ranges bytesDone) }
  | settles (outcome : Except DownloadError Unit) (r : DownloadRecord) (here : List Name)
      (hp : s.process = some ⟨r, .active, here⟩) :
      Stepped s (.settle outcome) { s with
        store := s.store.update r.id (DownloadRecord.setStatus (finalStatus outcome))
        process := some ⟨r, .settled, here⟩ }
  | marksClean (r : DownloadRecord) (here : List Name)
      (hp : s.process = some ⟨r, .settled, here⟩) :
      Stepped s .markClean { s with
        store := s.store.update r.id (DownloadRecord.markClean true)
        process := none }
  | dies : Stepped s .kill { s with process := none }

variable {locate} {s s' : CliState κ}

theorem touch_eq {f : Option File → Option File} (h : s.touch locate f = some s') :
    ∃ r here, s.process = some ⟨r, .active, here⟩ ∧ s' = { s with
      files := Function.update s.files (locate here r.partFile)
        (f (s.files (locate here r.partFile))) } := by
  unfold touch at h
  split at h
  · rename_i r here hp
    exact ⟨r, here, hp, (Option.some.inj h).symm⟩
  · simp at h

/-- **There are no other outcomes.** -/
theorem stepped {e : CliEvent} (h : s.step locate e = some s') : s.Stepped locate e s' := by
  cases e with
  | openStore =>
    simp only [CliState.step] at h
    split_ifs at h with hidle
    obtain rfl := Option.some.inj h
    exact .opens (by simpa using hidle)
  | get g =>
    simp only [CliState.step] at h
    split_ifs at h with hidle
    obtain ⟨store, hins, rfl⟩ := Option.map_eq_some_iff.1 h
    exact .gets g store (by simpa using hidle) hins
  | resume settings id here =>
    simp only [CliState.step] at h
    split_ifs at h with hidle
    obtain ⟨r', hr', rfl⟩ := Option.map_eq_some_iff.1 h
    obtain ⟨r, hget, hr⟩ := Option.bind_eq_some_iff.1 hr'
    split_ifs at hr with hopen
    obtain rfl := Option.some.inj hr
    exact .resumes settings id here r (by simpa using hidle) hget hopen
  | activate =>
    simp only [CliState.step] at h
    split at h
    · rename_i r here hp
      obtain rfl := Option.some.inj h
      exact .activates r here hp
    · simp at h
  | openPart total =>
    simp only [CliState.step] at h
    obtain ⟨r, here, hp, rfl⟩ := touch_eq h
    exact .touches _ r here _ (.inl ⟨total, rfl⟩) hp
  | write offset bytes =>
    simp only [CliState.step] at h
    obtain ⟨r, here, hp, rfl⟩ := touch_eq h
    exact .touches _ r here _ (.inr ⟨offset, bytes, rfl⟩) hp
  | publish seen uuid =>
    simp only [CliState.step] at h
    split at h
    · rename_i r here hp
      obtain ⟨file, hfile, rfl⟩ := Option.map_eq_some_iff.1 h
      exact .publishes seen uuid r here file hp hfile
    · simp at h
  | checkpoint ranges bytesDone =>
    simp only [CliState.step] at h
    split at h
    · rename_i r here hp
      obtain ⟨store, hst, rfl⟩ := Option.map_eq_some_iff.1 h
      obtain ⟨r₀, -, rfl⟩ := Option.map_eq_some_iff.1 hst
      exact .checkpoints ranges bytesDone r here hp
    · simp at h
  | settle outcome =>
    simp only [CliState.step] at h
    split at h
    · rename_i r here hp
      obtain rfl := Option.some.inj h
      exact .settles outcome r here hp
    · simp at h
  | markClean =>
    simp only [CliState.step] at h
    split at h
    · rename_i r here hp
      obtain rfl := Option.some.inj h
      exact .marksClean r here hp
    · simp at h
  | kill =>
    obtain ⟨p, -, rfl⟩ := Option.map_eq_some_iff.1 h
    exact .dies

/-- The files that an event may change: the part file of a download that runs, and the file that it
is renamed to. -/
def worksOn (locate : List Name → Path → κ) (s : CliState κ) (e : CliEvent) : List κ :=
  match s.process with
  | some ⟨r, .active, here⟩ => locate here r.partFile ::
    match e with
    | .publish seen uuid => [locate here (r.finalFile seen uuid)]
    | _ => []
  | _ => []

/-- A step changes no file but those it works on. -/
theorem files_of_step {e : CliEvent} (hs : s.step locate e = some s') {k : κ}
    (hk : k ∉ s.worksOn locate e) : s'.files k = s.files k := by
  cases stepped hs with
  | touches e r here file he hp =>
    refine Function.update_of_ne ?_ _ _
    rcases he with ⟨total, rfl⟩ | ⟨offset, bytes, rfl⟩ <;> simpa [worksOn, hp] using hk
  | publishes seen uuid r here file hp hfile =>
    simp only [worksOn, hp, List.mem_cons, List.not_mem_nil, or_false, not_or] at hk
    dsimp only
    rw [Function.update_of_ne hk.2, Function.update_of_ne hk.1]
  | _ => rfl

end CliState

/-- A `get` of two bytes under a given name, in the directory of the command. -/
def getNamed (id : ℕ) (name : Name) (here : List Name := []) : GetCmd where
  id := id
  here := here
  out := []
  name := some name
  pr := twoBytes

/-- A `get` that is paused after its first byte, which is recorded. -/
def pausedGet (g : GetCmd) : List CliEvent :=
  [.get g, .activate, .openPart (some 2), .write 0 [1], .checkpoint ⟨[(0, 1)]⟩ 1,
    .settle (.error .cancelled), .markClean]

end SwiftLoad
