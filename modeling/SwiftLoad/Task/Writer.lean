import SwiftLoad.Machine.Program
import SwiftLoad.Util.Intervals
import SwiftLoad.Fsx

/-!
# The single writer task

`task/writer.rs`.  The writer owns the part file and receives messages from the workers.  It
writes them in batches and records what is on disk with the checkpoint sink, in the order
`write`, `sync_data`, `checkpoint`.

Everything the writer does to the outside is appended to a log of `IoEvent`s, from which the file
can be replayed; a crash leaves a prefix of the log.  The environment `Env` decides the outcome of
each system call, the readings of the clock and the order an unstable sort leaves, and a queued
message carries whether a `try_recv` that looks for it finds it in the queue already.

* `Writer.run` : the task, as a program.
* `Licensed` : what a checkpoint may claim after a given history.
* `checkpoint_durable` : **every checkpoint the writer makes is licensed.**
-/

namespace SwiftLoad

open Ranges

/-- Largest single coalesced write. -/
def maxCoalesce : ℕ := 1024 * 1024

/-- `WriteMsg::Sync` and `WriteMsg::Finish`, which ask for a checkpoint and expect a reply. -/
inductive Control
  /-- Force a durability checkpoint now (pause, or shutdown). -/
  | sync
  /-- Final flush; the writer exits afterwards. -/
  | finish
deriving DecidableEq, Repr

/-- `WriteMsg`. -/
inductive WriteMsg
  | data (offset : ℕ) (bytes : List UInt8)
  | control (c : Control)
deriving DecidableEq, Repr

/-- A message on its way to the writer.  When it is `late`, a `try_recv` that looks for it comes
too early and finds the queue empty. -/
structure Queued where
  msg : WriteMsg
  late : Bool
deriving DecidableEq, Repr

/-- What a checkpoint is made for. -/
inductive Cause
  /-- Enough bytes or time since the last one. -/
  | due
  /-- All senders are gone. -/
  | closed
  | requested (c : Control)
deriving DecidableEq, Repr

/-- A checkpoint nobody asked for; its failure ends the writer. -/
def Cause.automatic : Cause → Bool
  | .requested _ => false
  | _ => true

/-- A call to the outside, with its outcome. -/
inductive IoEvent
  /-- `write_at`; when it fails, `bytes` are those that reached the file. -/
  | write (offset : ℕ) (bytes : List UInt8) (ok : Bool)
  | sync (cause : Cause) (ok : Bool)
  /-- `sink.checkpoint(ranges, bytes_done)`. -/
  | checkpoint (cause : Cause) (ranges : RangeSet) (bytesDone : ℕ) (ok : Bool)
  /-- The answer to a `Sync` or a `Finish`. -/
  | reply (ranges : Option RangeSet)
deriving DecidableEq, Repr

/-- Which system call failed. -/
inductive WriterError
  | write
  | sync
  | checkpoint
deriving DecidableEq, Repr

/-- The outcome of one system call; a failed write leaves the first `landed` bytes. -/
structure Outcome where
  ok : Bool
  landed : ℕ

/-- The choices of the environment, by the number of calls made before. -/
structure Env where
  outcome : ℕ → Outcome
  clock : ℕ → Nanos
  /-- `sort_unstable_by_key` by offset. -/
  sortUnstable : List (ℕ × List UInt8) → List (ℕ × List UInt8)
  sort_perm : ∀ l, (sortUnstable l).Perm l
  sort_sorted : ∀ l, (sortUnstable l).Pairwise startLe

/-- No call fails and the clock stands still. -/
structure Env.Quiet (env : Env) : Prop where
  ok : ∀ n, (env.outcome n).ok = true
  clock : ∀ n, env.clock n = 0

/-- No call fails, the clock stands still and the sort is stable. -/
def Env.calm : Env where
  outcome := fun _ => ⟨true, 0⟩
  clock := fun _ => 0
  sortUnstable := sortByStart
  sort_perm := sortByStart_perm
  sort_sorted := sortByStart_pairwise

theorem Env.quiet_calm : Env.calm.Quiet := ⟨fun _ => rfl, fun _ => rfl⟩

/-- The local variables of the task, the number of calls made, and the log. -/
structure WriterState where
  done : RangeSet
  sinceCheckpoint : ℕ
  lastCheckpoint : Nanos
  /-- Buffered, not-yet-written chunks awaiting coalescing. -/
  pending : List (ℕ × List UInt8)
  pendingBytes : ℕ
  calls : ℕ
  log : List IoEvent

namespace Writer

variable (env : Env)

/-- The next choice of the environment. -/
def tick : Program WriterState WriterError ℕ :=
  modifyGet fun w => (w.calls, { w with calls := w.calls + 1 })

/-- Append to the log. -/
def emit (e : IoEvent) : Program WriterState WriterError Unit :=
  modify fun w => { w with log := w.log ++ [e] }

/-- Log a failed call and return its error. -/
def failWith (e : IoEvent) (error : WriterError) : Program WriterState WriterError Unit := do
  emit e
  throw error

/-- `Instant::now`. -/
def now : Program WriterState WriterError Nanos := do
  return env.clock (← tick)

/-- `fsx::write_at`.  A write past the largest file size fails. -/
def writeAt (buf : List UInt8) (offset : ℕ) : Program WriterState WriterError Unit := do
  let o := env.outcome (← tick)
  if o.ok = true ∧ offset + buf.length ≤ maxFileLen then
    emit (.write offset buf true)
  else
    failWith (.write offset (buf.take o.landed) false) .write

/-- `File::sync_data`. -/
def syncData (cause : Cause) : Program WriterState WriterError Unit := do
  if (env.outcome (← tick)).ok = true then
    emit (.sync cause true)
  else
    failWith (.sync cause false) .sync

/-- `CheckpointSink::checkpoint`. -/
def sinkCheckpoint (cause : Cause) (ranges : RangeSet) (bytesDone : ℕ) :
    Program WriterState WriterError Unit := do
  if (env.outcome (← tick)).ok = true then
    emit (.checkpoint cause ranges bytesDone true)
  else
    failWith (.checkpoint cause ranges bytesDone false) .checkpoint

/-- Make data durable, *then* record it.  Never the other way round. -/
def durableCheckpoint (cause : Cause) : Program WriterState WriterError Unit := do
  syncData env cause
  let w ← get
  sinkCheckpoint env cause w.done w.done.total

/-- Write the buffer and count it as done. -/
def writeOut (buf : List UInt8) (bufStart : ℕ) : Program WriterState WriterError Unit := do
  writeAt env buf bufStart
  modify fun w => { w with
    done := w.done.insert bufStart buf.length
    sinceCheckpoint := w.sinceCheckpoint + buf.length }

/-- The loop of `flush_pending` with its buffer: merge adjacent chunks, and issue positional
writes. -/
def flushLoop : List (ℕ × List UInt8) → List UInt8 → ℕ → Program WriterState WriterError Unit
  | [], buf, bufStart => if buf = [] then pure () else writeOut env buf bufStart
  | (offset, bytes) :: rest, buf, bufStart =>
    if buf = [] then flushLoop rest bytes offset
    else if bufStart + buf.length = offset ∧ buf.length + bytes.length ≤ maxCoalesce then
      flushLoop rest (buf ++ bytes) bufStart
    else do
      writeOut env buf bufStart
      flushLoop rest bytes offset

/-- `flush_pending`. -/
def flushPending : Program WriterState WriterError Unit := do
  let w ← get
  if w.pending = [] then pure ()
  else
    modify fun w => { w with pending := [] }
    flushLoop env (env.sortUnstable w.pending) [] 0
    modify fun w => { w with pendingBytes := 0 }

/-- The result of a checkpoint as the reply carries it. -/
def attempt (m : Program WriterState WriterError Unit) : Program WriterState WriterError Bool :=
  tryCatch (do m; return true) fun _ => return false

/-- `handle_control`: returns true when the writer should exit. -/
def handleControl : Control → Program WriterState WriterError Bool
  | .sync => do
    let r ← attempt (durableCheckpoint env (.requested .sync))
    let t ← now env
    modify fun w => { w with sinceCheckpoint := 0, lastCheckpoint := t }
    let w ← get
    emit (.reply (if r then some w.done else none))
    return false
  | .finish => do
    let r ← attempt (durableCheckpoint env (.requested .finish))
    let w ← get
    emit (.reply (if r then some w.done else none))
    return true

/-- Buffer a chunk. -/
def push (offset : ℕ) (bytes : List UInt8) : Program WriterState WriterError Unit :=
  modify fun w => { w with
    pendingBytes := w.pendingBytes + bytes.length
    pending := w.pending ++ [(offset, bytes)] }

/-- Opportunistically drain whatever else is queued.  Returns whether the writer should exit, and
the messages left. -/
def drain : List Queued → Program WriterState WriterError (Bool × List Queued)
  | [] => return (false, [])
  | q :: rest => do
    let w ← get
    if w.pendingBytes < maxCoalesce ∧ q.late = false then
      match q.msg with
      | .data offset bytes =>
        push offset bytes
        drain rest
      | .control c =>
        flushPending env
        return (← handleControl env c, rest)
    else return (false, q :: rest)

/-- Checkpoint when enough bytes or time have passed since the last one. -/
def checkpointIfDue : Program WriterState WriterError Unit := do
  let t ← now env
  let w ← get
  if checkpointBytes ≤ w.sinceCheckpoint ∨ checkpointInterval ≤ t - w.lastCheckpoint then
    durableCheckpoint env .due
    let t ← now env
    modify fun w => { w with sinceCheckpoint := 0, lastCheckpoint := t }

/-- What follows the loop when all senders are gone. -/
def close : Program WriterState WriterError RangeSet := do
  flushPending env
  durableCheckpoint env .closed
  return (← get).done

/-- The loop of `run`.  Every round receives a message (`serve_succ`), so `rounds` is the length of
the queue. -/
def serve : ℕ → List Queued → Program WriterState WriterError RangeSet
  | 0, _ => close env
  | _, [] => close env
  | rounds + 1, q :: rest =>
    match q.msg with
    | .data offset bytes => do
      push offset bytes
      let (exit, rest) ← drain env rest
      if exit then return (← get).done
      else
        flushPending env
        checkpointIfDue env
        serve rounds rest
    | .control c => do
      flushPending env
      if ← handleControl env c then return (← get).done
      else serve rounds rest

/-- The state in which `run` enters its loop. -/
def start (initial : RangeSet) : WriterState where
  done := initial
  sinceCheckpoint := 0
  lastCheckpoint := env.clock 0
  pending := []
  pendingBytes := 0
  calls := 1
  log := []

/-- The writer task on a sequence of messages, after which the channel closes. -/
def run (initial : RangeSet) (inbox : List Queued) : Except WriterError RangeSet × WriterState :=
  (serve env inbox.length inbox).runFrom (start env initial)

open Program

theorem drain_length (l : List Queued) :
    Triple (fun _ => True) (drain env l) (fun r _ => r.2.length ≤ l.length) fun _ _ => True := by
  induction l with
  | nil => exact Triple.pure fun _ _ => le_rfl
  | cons q rest ih =>
    unfold drain
    refine Triple.get_bind fun w => Triple.ite (fun _ => ?_) fun _ => Triple.pure fun _ _ => le_rfl
    have hle : ∀ n, n ≤ rest.length → n ≤ (q :: rest).length := fun n h => h.trans (Nat.le_succ _)
    match q.msg with
    | .data offset bytes =>
      refine Triple.bind (Q := fun _ _ => True) (Triple.of_forall (fun _ _ => trivial)
        fun _ _ => trivial) fun _ => ?_
      exact ih.conseq (fun _ _ => trivial) (fun r _ h => hle _ h) fun _ _ h => h
    | .control c =>
      refine Triple.bind (Q := fun _ _ => True) (Triple.of_forall (fun _ _ => trivial)
        fun _ _ => trivial) fun _ => ?_
      exact Triple.bind (Q := fun _ _ => True) (Triple.of_forall (fun _ _ => trivial)
        fun _ _ => trivial) fun _ => Triple.pure fun _ _ => hle _ le_rfl

theorem serve_succ {rounds : ℕ} {l : List Queued} (h : l.length ≤ rounds) (w : WriterState) :
    (serve env rounds l).runFrom w = (serve env (rounds + 1) l).runFrom w := by
  induction rounds generalizing l w with
  | zero =>
    obtain rfl := List.eq_nil_of_length_eq_zero (Nat.le_zero.1 h)
    rfl
  | succ rounds ih =>
    cases l with
    | nil => rfl
    | cons q rest =>
      have hrest : rest.length ≤ rounds := Nat.le_of_succ_le_succ h
      simp only [serve]
      cases q.msg with
      | data offset bytes =>
        refine Triple.bind_congr' (fun _ s => ?_) w
        refine Triple.bind_congr (drain_length env rest) (fun r s hr => ?_) trivial
        split_ifs
        · rfl
        · refine Triple.bind_congr' (fun _ s => Triple.bind_congr' (fun _ s => ?_) s) s
          exact ih (hr.trans hrest) s
      | control c =>
        refine Triple.bind_congr' (fun _ s => Triple.bind_congr' (fun exit s => ?_) s) w
        split_ifs
        · rfl
        · exact ih hrest s

end Writer

/-! ### Histories -/

/-- The byte a successful write put at position `b`. -/
def IoEvent.written (b : ℕ) : IoEvent → Option UInt8
  | .write offset bytes true => if offset ≤ b then bytes[b - offset]? else none
  | _ => none

/-- The byte last written at position `b` by a successful write. -/
def lastWritten (log : List IoEvent) (b : ℕ) : Option UInt8 :=
  log.foldl (fun v e => (e.written b).or v) none

/-- A failed write, or a failed checkpoint that nobody asked for. -/
def IoEvent.fatal : IoEvent → Bool
  | .write _ _ ok => !ok
  | .sync cause ok => !ok && cause.automatic
  | .checkpoint cause _ _ ok => !ok && cause.automatic
  | .reply _ => false

namespace Disk

/-- The effect of one call on the part file. -/
def apply (d : Disk) : IoEvent → Disk
  | .write offset bytes _ => d.put offset bytes
  | .sync _ true => d.sync
  | _ => d

/-- The part file after a history. -/
def replay (d : Disk) (log : List IoEvent) : Disk := log.foldl apply d

@[simp] theorem replay_snoc (d : Disk) (log : List IoEvent) (e : IoEvent) :
    d.replay (log ++ [e]) = (d.replay log).apply e := by
  simp [replay]

end Disk

@[simp] theorem lastWritten_snoc (log : List IoEvent) (e : IoEvent) (b : ℕ) :
    lastWritten (log ++ [e]) b = (e.written b).or (lastWritten log b) := by
  simp [lastWritten]

/-- As long as no write has failed, the file holds the byte last written. -/
theorem volatile_of_lastWritten {d : Disk} {log : List IoEvent}
    (hlog : ∀ e ∈ log, e.fatal = false) {b : ℕ} {v : UInt8} (h : lastWritten log b = some v) :
    (d.replay log).volatile.data b = v ∧ b < (d.replay log).volatile.len := by
  induction log using List.reverseRecOn with
  | nil => simp [lastWritten] at h
  | append_singleton log e ih =>
    have ih := ih fun e' he' => hlog e' (List.mem_append_left _ he')
    rw [lastWritten_snoc] at h
    rw [Disk.replay_snoc]
    cases e with
    | write offset bytes ok =>
      have hok : ok = true := by simpa [IoEvent.fatal] using hlog (.write offset bytes ok) (by simp)
      subst hok
      simp only [Disk.apply, Disk.put]
      by_cases hb : offset ≤ b ∧ b < offset + bytes.length
      · have hget : bytes[b - offset]? = some v := by
          have hlt : b - offset < bytes.length := by omega
          simpa [IoEvent.written, hb.1, List.getElem?_eq_getElem hlt] using h
        have hne : bytes ≠ [] := by rintro rfl; simp at hget
        rw [File.put_data_of_mem hb.1 hb.2, File.put_len _ hne, List.getD_eq_getElem?_getD, hget]
        exact ⟨rfl, lt_max_of_lt_right hb.2⟩
      · have hnone : (IoEvent.write offset bytes true).written b = none := by
          simp only [IoEvent.written]
          split_ifs with hle
          · exact List.getElem?_eq_none (by omega)
          · rfl
        rw [hnone, Option.none_or] at h
        obtain ⟨hv, hlt⟩ := ih h
        rw [File.put_data_of_not_mem hb hlt]
        exact ⟨hv, hlt.trans_le (File.len_le_put_len _ _ _)⟩
    | sync cause ok => cases ok <;> exact ih h
    | checkpoint cause ranges n ok => exact ih h
    | reply ranges => exact ih h

/-- The positions that successful writes have reached. -/
def writtenBytes (log : List IoEvent) : Set ℕ := {b | ∃ v, lastWritten log b = some v}

/-- The positions that were written before a successful sync. -/
def syncedBytes (log : List IoEvent) : Set ℕ :=
  {b | ∃ pre cause post, log = pre ++ .sync cause true :: post ∧ b ∈ writtenBytes pre}

theorem written_write {offset b : ℕ} {bytes : List UInt8} :
    (∃ v, (IoEvent.write offset bytes true).written b = some v) ↔
      b ∈ span (offset, bytes.length) := by
  simp only [IoEvent.written, mem_span]
  split_ifs with h
  · constructor
    · rintro ⟨v, hv⟩
      obtain ⟨hlt, -⟩ := List.getElem?_eq_some_iff.1 hv
      omega
    · intro hb
      have hlt : b - offset < bytes.length := by omega
      exact ⟨bytes[b - offset], List.getElem?_eq_getElem hlt⟩
  · simp [h]

theorem mem_writtenBytes_snoc {log : List IoEvent} {e : IoEvent} {b : ℕ} :
    b ∈ writtenBytes (log ++ [e]) ↔ (∃ v, e.written b = some v) ∨ b ∈ writtenBytes log := by
  simp only [writtenBytes, Set.mem_ofPred_eq, lastWritten_snoc]
  cases e.written b <;> simp

theorem mem_writtenBytes {log : List IoEvent} {b : ℕ} :
    b ∈ writtenBytes log ↔ ∃ e ∈ log, ∃ v, e.written b = some v := by
  induction log using List.reverseRecOn with
  | nil => simp [writtenBytes, lastWritten]
  | append_singleton log e ih =>
    rw [mem_writtenBytes_snoc, ih]
    constructor
    · rintro (he | ⟨e', he', h⟩)
      · exact ⟨e, by simp, he⟩
      · exact ⟨e', List.mem_append_left _ he', h⟩
    · rintro ⟨e', he', h⟩
      rcases List.mem_append.1 he' with he' | he'
      · exact Or.inr ⟨e', he', h⟩
      · exact Or.inl (List.mem_singleton.1 he' ▸ h)

/-- A longer history has synced no less, whether it began earlier or went on. -/
theorem syncedBytes_append (before log after : List IoEvent) :
    syncedBytes log ⊆ syncedBytes (before ++ log ++ after) := by
  rintro b ⟨pre, cause, post, rfl, hb⟩
  obtain ⟨e, he, h⟩ := mem_writtenBytes.1 hb
  exact ⟨before ++ pre, cause, post ++ after, by simp,
    mem_writtenBytes.2 ⟨e, List.mem_append_right _ he, h⟩⟩

@[simp] theorem syncedBytes_nil : syncedBytes [] = ∅ := by
  ext b
  simp [syncedBytes]

theorem writtenBytes_write {log : List IoEvent} {offset : ℕ} {bytes : List UInt8} :
    writtenBytes (log ++ [.write offset bytes true]) =
      writtenBytes log ∪ span (offset, bytes.length) := by
  ext b
  rw [mem_writtenBytes_snoc, written_write, Set.mem_union, or_comm]

theorem writtenBytes_snoc {log : List IoEvent} {e : IoEvent} (he : ∀ b, e.written b = none) :
    writtenBytes (log ++ [e]) = writtenBytes log := by
  ext b
  simp [mem_writtenBytes_snoc, he]

theorem writtenBytes_subset_syncedBytes {log : List IoEvent} {cause : Cause}
    (h : log.getLast? = some (.sync cause true)) : writtenBytes log ⊆ syncedBytes log := by
  obtain ⟨pre, rfl⟩ := List.getLast?_eq_some_iff.1 h
  intro b hb
  rw [writtenBytes_snoc fun _ => rfl] at hb
  exact ⟨pre, cause, [], rfl, hb⟩

/-! ### The length of the file -/

theorem Disk.len_le_replay (d : Disk) (log : List IoEvent) :
    d.volatile.len ≤ (d.replay log).volatile.len := by
  induction log using List.reverseRecOn with
  | nil => exact le_rfl
  | append_singleton log e ih =>
    rw [Disk.replay_snoc]
    refine ih.trans ?_
    cases e with
    | write offset bytes ok => exact File.len_le_put_len _ _ _
    | sync cause ok => cases ok <;> exact le_rfl
    | checkpoint cause ranges n ok => exact le_rfl
    | reply ranges => exact le_rfl

/-- As long as no write has failed, the file grows only as far as the bytes written reach. -/
theorem Disk.replay_len_le {d : Disk} {log : List IoEvent} (hlog : ∀ e ∈ log, e.fatal = false)
    {stop : ℕ} (hstop : ∀ b ∈ writtenBytes log, b < stop) :
    (d.replay log).volatile.len ≤ max d.volatile.len stop := by
  induction log using List.reverseRecOn with
  | nil => exact le_max_left _ _
  | append_singleton log e ih =>
    have ih := ih (fun e' he' => hlog e' (List.mem_append_left _ he')) fun b hb =>
      hstop b (mem_writtenBytes_snoc.2 (Or.inr hb))
    rw [Disk.replay_snoc]
    cases e with
    | write offset bytes ok =>
      have hok : ok = true := by simpa [IoEvent.fatal] using hlog (.write offset bytes ok) (by simp)
      subst hok
      by_cases hne : bytes = []
      · simpa [Disk.apply, Disk.put, File.put, hne] using ih
      · -- the last byte of the write is below the bound
        have hlen : 0 < bytes.length := List.length_pos_iff.2 hne
        have hlast := hstop (offset + bytes.length - 1) (mem_writtenBytes_snoc.2
          (Or.inl (written_write.2 (by rw [mem_span]; omega))))
        change ((d.replay log).volatile.put offset bytes).len ≤ _
        rw [File.put_len _ hne]
        exact max_le ih (le_max_of_le_right (by omega))
    | sync cause ok => cases ok <;> exact ih
    | checkpoint cause ranges n ok => exact ih
    | reply ranges => exact ih

/-- As long as no write has failed, the bytes of the file that were not written stay. -/
theorem Disk.replay_data_of_not_mem {d : Disk} {log : List IoEvent}
    (hlog : ∀ e ∈ log, e.fatal = false) {b : ℕ} (hb : b < d.volatile.len)
    (hnot : b ∉ writtenBytes log) : (d.replay log).volatile.data b = d.volatile.data b := by
  induction log using List.reverseRecOn with
  | nil => rfl
  | append_singleton log e ih =>
    rw [mem_writtenBytes_snoc, not_or] at hnot
    obtain ⟨hlast, hnot⟩ := hnot
    have ih := ih (fun e' he' => hlog e' (List.mem_append_left _ he')) hnot
    rw [Disk.replay_snoc]
    cases e with
    | write offset bytes ok =>
      have hok : ok = true := by simpa [IoEvent.fatal] using hlog (.write offset bytes ok) (by simp)
      subst hok
      rw [written_write, mem_span] at hlast
      exact (File.put_data_of_not_mem hlast (hb.trans_le (Disk.len_le_replay d log))).trans ih
    | sync cause ok => cases ok <;> exact ih
    | checkpoint cause ranges n ok => exact ih
    | reply ranges => exact ih

section Licensed

variable (disk : Disk) (initial : RangeSet)

/-- What the claim `(ranges, bytesDone)` says is true of a part file that began as `disk` with
`initial` done, after the history `log`: the count is right, every new byte was written and synced
and is durable with the value last written, and nothing fatal has happened. -/
structure Licensed (log : List IoEvent) (ranges : RangeSet) (bytesDone : ℕ) : Prop where
  count : bytesDone = ranges.total
  durable : ∀ b ∈ ranges.covered, b ∉ initial.covered →
    ∃ v, lastWritten log b = some v ∧ (disk.replay log).durable.data b = v ∧
      b < (disk.replay log).durable.len
  synced : ∀ b ∈ ranges.covered, b ∉ initial.covered → b ∈ syncedBytes log
  ordered : ranges.Ordered
  clean : ∀ e ∈ log, e.fatal = false

/-- Every checkpoint of the history was licensed when it was made. -/
def CheckpointsLicensed (log : List IoEvent) : Prop :=
  ∀ pre cause ranges n ok post, log = pre ++ .checkpoint cause ranges n ok :: post →
    Licensed disk initial pre ranges n

variable {disk initial}

theorem checkpointsLicensed_nil : CheckpointsLicensed disk initial [] := by
  intro pre cause ranges n ok post h
  simp at h

theorem CheckpointsLicensed.snoc {log : List IoEvent} (h : CheckpointsLicensed disk initial log)
    {e : IoEvent} (he : ∀ cause ranges n ok, e = .checkpoint cause ranges n ok →
      Licensed disk initial log ranges n) : CheckpointsLicensed disk initial (log ++ [e]) := by
  intro pre cause ranges n ok post heq
  rcases List.eq_nil_or_concat post with rfl | ⟨post', e', rfl⟩
  · obtain ⟨rfl, hlast⟩ := List.append_inj' heq rfl
    exact he cause ranges n ok (List.singleton_inj.1 hlast)
  · rw [List.concat_eq_append, ← List.cons_append, ← List.append_assoc] at heq
    obtain ⟨rfl, -⟩ := List.append_inj' heq rfl
    exact h pre cause ranges n ok post' rfl

/-- The writer's invariant between two calls, `M` being the bytes it is sent: what counts as done
is what was done at first and what was written. -/
structure WriterState.Good (disk : Disk) (initial : RangeSet) (M : Set ℕ) (w : WriterState) :
    Prop where
  ordered : w.done.Ordered
  written : ∀ b ∈ w.done.covered, b ∉ initial.covered → b ∈ writtenBytes w.log
  recorded : writtenBytes w.log ⊆ w.done.covered
  within : writtenBytes w.log ⊆ M
  pending : ∀ m ∈ w.pending, span (m.1, m.2.length) ⊆ M
  /-- A reply that nothing has followed tells what is done. -/
  replied : ∀ R, w.log.getLast? = some (.reply (some R)) → R = w.done
  licensed : CheckpointsLicensed disk initial w.log
  clean : ∀ e ∈ w.log, e.fatal = false

end Licensed

/-- A message that carries bytes of `M`, or none. -/
def WriteMsg.Within (M : Set ℕ) : WriteMsg → Prop
  | .data offset bytes => span (offset, bytes.length) ⊆ M
  | .control _ => True

namespace Writer

open Program

variable {env : Env} {disk : Disk} {initial : RangeSet} {M : Set ℕ} {w : WriterState}

theorem good_congr {w' : WriterState} (h : w.Good disk initial M) (hdone : w'.done = w.done)
    (hlog : w'.log = w.log) (hpending : ∀ m ∈ w'.pending, span (m.1, m.2.length) ⊆ M) :
    w'.Good disk initial M where
  ordered := hdone ▸ h.ordered
  written := by rw [hdone, hlog]; exact h.written
  recorded := by rw [hdone, hlog]; exact h.recorded
  within := hlog ▸ h.within
  pending := hpending
  replied := by rw [hdone, hlog]; exact h.replied
  licensed := hlog ▸ h.licensed
  clean := hlog ▸ h.clean

/-- A call that writes nothing keeps the invariant, if it records and replies what is so. -/
theorem good_emit (h : w.Good disk initial M) {e : IoEvent} (hfatal : e.fatal = false)
    (hwritten : ∀ b, e.written b = none)
    (hreply : ∀ R, e = .reply (some R) → R = w.done)
    (he : ∀ cause ranges n ok, e = .checkpoint cause ranges n ok →
      Licensed disk initial w.log ranges n) :
    ({ w with log := w.log ++ [e] } : WriterState).Good disk initial M where
  ordered := h.ordered
  written := by rw [writtenBytes_snoc hwritten]; exact h.written
  recorded := by rw [writtenBytes_snoc hwritten]; exact h.recorded
  within := by rw [writtenBytes_snoc hwritten]; exact h.within
  pending := h.pending
  replied := by
    intro R hR
    rw [List.getLast?_concat] at hR
    exact hreply R (Option.some.inj hR)
  licensed := h.licensed.snoc he
  clean := by
    intro e' he'
    rcases List.mem_append.1 he' with he' | he'
    · exact h.clean e' he'
    · obtain rfl := List.mem_singleton.1 he'
      exact hfatal

/-- An error leaves only the past checkpoints to vouch for. -/
abbrev Failed (disk : Disk) (initial : RangeSet) : WriterError → WriterState → Prop :=
  fun _ w => CheckpointsLicensed disk initial w.log

abbrev Fine (disk : Disk) (initial : RangeSet) (M : Set ℕ) {α : Type} : α → WriterState → Prop :=
  fun _ w => w.Good disk initial M

theorem tick_spec {E : WriterError → WriterState → Prop} :
    Triple (WriterState.Good disk initial M) tick (Fine disk initial M) E :=
  Triple.modifyGet fun _ h => good_congr h rfl rfl h.pending

theorem failWith_spec {P : WriterState → Prop} {Q : Unit → WriterState → Prop}
    {E : WriterError → WriterState → Prop} {e : IoEvent} {error : WriterError}
    (h : ∀ w, P w → E error { w with log := w.log ++ [e] }) : Triple P (failWith e error) Q E :=
  Triple.bind (Q := fun _ => E error) (Triple.modify h) fun _ => Triple.throw fun _ h => h

theorem now_spec {E : WriterError → WriterState → Prop} :
    Triple (WriterState.Good disk initial M) (now env) (Fine disk initial M) E := by
  unfold now
  exact tick_spec.bind fun a => Triple.pure fun _ h => h

/-- After a successful write the log is one call ahead of what counts as done. -/
theorem writeAt_spec (buf : List UInt8) (offset : ℕ) :
    Triple (WriterState.Good disk initial M) (writeAt env buf offset)
      (fun _ w => ∃ log, ({ w with log := log } : WriterState).Good disk initial M ∧
        w.log = log ++ [.write offset buf true] ∧ offset + buf.length ≤ maxFileLen)
      (Failed disk initial) := by
  unfold writeAt
  refine tick_spec.bind fun a => Triple.ite (fun hok => ?_) fun _ => ?_
  · exact Triple.modify fun w h => ⟨w.log, h, rfl, hok.2⟩
  · exact failWith_spec fun w h => h.licensed.snoc (by simp)

theorem writeOut_spec (buf : List UInt8) (bufStart : ℕ) (hM : span (bufStart, buf.length) ⊆ M) :
    Triple (WriterState.Good disk initial M) (writeOut env buf bufStart) (Fine disk initial M)
      (Failed disk initial) := by
  unfold writeOut
  refine (writeAt_spec buf bufStart).bind fun _ => Triple.modify ?_
  rintro w ⟨log, h, hlog, hmax⟩
  have hmax : bufStart + buf.length ≤ u64Max := by unfold u64Max; unfold maxFileLen at hmax; omega
  have hdone := RangeSet.covered_insert h.ordered hmax
  have hwritten : writtenBytes w.log = writtenBytes log ∪ span (bufStart, buf.length) := by
    rw [hlog, writtenBytes_write]
  refine ⟨RangeSet.ordered_insert h.ordered hmax, ?_, ?_,
    ?_, h.pending, ?_, ?_, ?_⟩
  · intro b hb hnew
    -- a byte of the grown set was there before or lies in the buffer just written
    change b ∈ (w.done.insert bufStart buf.length).covered at hb
    change b ∈ writtenBytes w.log
    rw [hdone] at hb
    rw [hwritten]
    rcases hb with hb | hb
    · exact Or.inl (h.written b hb hnew)
    · exact Or.inr hb
  · intro b hb
    change b ∈ (w.done.insert bufStart buf.length).covered
    change b ∈ writtenBytes w.log at hb
    rw [hwritten] at hb
    rw [hdone]
    rcases hb with hb | hb
    · exact Or.inl (h.recorded hb)
    · exact Or.inr hb
  · intro b hb
    change b ∈ writtenBytes w.log at hb
    rw [hwritten] at hb
    rcases hb with hb | hb
    · exact h.within hb
    · exact hM hb
  · intro R hR
    change w.log.getLast? = _ at hR
    rw [hlog, List.getLast?_concat] at hR
    simp at hR
  · change CheckpointsLicensed disk initial w.log
    rw [hlog]
    exact h.licensed.snoc (by simp)
  · intro e he
    change e ∈ w.log at he
    rw [hlog] at he
    rcases List.mem_append.1 he with he | he
    · exact h.clean e he
    · rw [List.mem_singleton.1 he]
      rfl

theorem flushLoop_spec (l : List (ℕ × List UInt8)) (buf : List UInt8) (bufStart : ℕ)
    (hl : ∀ m ∈ l, span (m.1, m.2.length) ⊆ M) (hbuf : span (bufStart, buf.length) ⊆ M) :
    Triple (WriterState.Good disk initial M) (flushLoop env l buf bufStart) (Fine disk initial M)
      (Failed disk initial) := by
  induction l generalizing buf bufStart with
  | nil =>
    exact Triple.ite (fun _ => Triple.pure fun _ h => h) fun _ => writeOut_spec buf bufStart hbuf
  | cons p l ih =>
    obtain ⟨offset, bytes⟩ := p
    obtain ⟨hp, hl⟩ := List.forall_mem_cons.1 hl
    refine Triple.ite (fun _ => ih bytes offset hl hp) fun _ => ?_
    refine Triple.ite (fun hc => ih (buf ++ bytes) bufStart hl ?_) fun _ => ?_
    · -- the chunk continues the buffer
      intro b hb
      rw [mem_span, List.length_append, ← Nat.add_assoc, hc.1] at hb
      by_cases hlt : b < bufStart + buf.length
      · exact hbuf ⟨hb.1, hlt⟩
      · exact hp ⟨hc.1 ▸ Nat.not_lt.1 hlt, hb.2⟩
    · exact (writeOut_spec buf bufStart hbuf).bind fun _ => ih bytes offset hl hp

theorem flushPending_spec :
    Triple (WriterState.Good disk initial M) (flushPending env) (Fine disk initial M)
      (Failed disk initial) := by
  unfold flushPending
  refine Triple.get_bind fun w => ?_
  by_cases hw : ∀ m ∈ w.pending, span (m.1, m.2.length) ⊆ M
  · refine Triple.pre ?_ fun _ h => h.1
    refine Triple.ite (fun _ => Triple.pure fun _ h => h) fun _ => ?_
    refine Triple.bind (Q := Fine disk initial M)
      (Triple.modify fun _ h => good_congr h rfl rfl (by simp)) fun _ => ?_
    have hsorted : ∀ m ∈ env.sortUnstable w.pending, span (m.1, m.2.length) ⊆ M := fun m hm =>
      hw m ((env.sort_perm _).mem_iff.1 hm)
    refine (flushLoop_spec _ _ _ hsorted ?_).bind fun _ =>
      Triple.modify fun _ h => good_congr h rfl rfl h.pending
    intro b hb
    simp at hb
  · rintro w' ⟨h, rfl⟩
    exact absurd h.pending hw

/-- What a checkpoint that failed leaves: the invariant, unless nobody asked for it. -/
abbrev Unrecorded (disk : Disk) (initial : RangeSet) (M : Set ℕ) (cause : Cause) :
    WriterError → WriterState → Prop :=
  fun _ w => CheckpointsLicensed disk initial w.log ∧
    (cause.automatic = false → w.Good disk initial M)

theorem syncData_spec (cause : Cause) :
    Triple (WriterState.Good disk initial M) (syncData env cause)
      (fun _ w => w.Good disk initial M ∧ w.log.getLast? = some (.sync cause true))
      (Unrecorded disk initial M cause) := by
  unfold syncData
  refine tick_spec.bind fun a => Triple.ite (fun _ => ?_) fun _ => ?_
  · refine Triple.modify fun w h => ⟨good_emit h rfl (fun _ => rfl) (by simp) (by simp), ?_⟩
    exact List.getLast?_concat
  · refine failWith_spec fun w h => ⟨h.licensed.snoc (by simp), ?_⟩
    intro hc
    exact good_emit h (by simp [IoEvent.fatal, hc]) (fun _ => rfl) (by simp) (by simp)

theorem licensed_of_synced {cause : Cause} (h : w.Good disk initial M)
    (hsync : w.log.getLast? = some (.sync cause true)) :
    Licensed disk initial w.log w.done w.done.total where
  count := rfl
  durable := fun b hb hnew => by
    obtain ⟨v, hv⟩ := h.written b hb hnew
    have hdurable : (disk.replay w.log).durable = (disk.replay w.log).volatile := by
      obtain ⟨log, hlog⟩ := List.getLast?_eq_some_iff.1 hsync
      rw [hlog, Disk.replay_snoc]
      rfl
    rw [hdurable]
    exact ⟨v, hv, volatile_of_lastWritten h.clean hv⟩
  synced := fun b hb hnew => writtenBytes_subset_syncedBytes hsync (h.written b hb hnew)
  ordered := h.ordered
  clean := h.clean

/-- **Data first, then the record**: a checkpoint keeps the invariant, and so does a failed one that
somebody asked for. -/
theorem durableCheckpoint_spec (cause : Cause) :
    Triple (WriterState.Good disk initial M) (durableCheckpoint env cause) (Fine disk initial M)
      (Unrecorded disk initial M cause) := by
  unfold durableCheckpoint
  refine (syncData_spec cause).bind fun _ => Triple.get_bind fun w => ?_
  -- the call records what was durable before it
  have hlicensed : Triple (fun w' : WriterState => (w'.Good disk initial M ∧
      w'.log.getLast? = some (.sync cause true)) ∧ w' = w) tick
      (fun _ w' => w'.Good disk initial M ∧ Licensed disk initial w'.log w.done w.done.total)
      (Unrecorded disk initial M cause) := by
    refine Triple.modifyGet ?_
    rintro w' ⟨⟨h, hsync⟩, rfl⟩
    have hl := licensed_of_synced h hsync
    exact ⟨good_congr h rfl rfl h.pending, hl⟩
  unfold sinkCheckpoint
  refine hlicensed.bind fun _ => Triple.ite (fun _ => ?_) fun _ => ?_
  · refine Triple.modify fun w' h => good_emit h.1 rfl (fun _ => rfl) (by simp) ?_
    rintro _ _ _ _ ⟨⟩
    exact h.2
  · refine failWith_spec fun w' h => ⟨h.1.licensed.snoc ?_, fun hc => good_emit h.1 ?_
      (fun _ => rfl) (by simp) ?_⟩
    · rintro _ _ _ _ ⟨⟩
      exact h.2
    · simp [IoEvent.fatal, hc]
    · rintro _ _ _ _ ⟨⟩
      exact h.2

theorem attempt_spec (c : Control) {E : WriterError → WriterState → Prop} :
    Triple (WriterState.Good disk initial M) (attempt (durableCheckpoint env (.requested c)))
      (Fine disk initial M) E := by
  unfold attempt
  refine Triple.tryCatch ((durableCheckpoint_spec (.requested c)).bind fun _ =>
    Triple.pure fun _ h => h) fun _ => Triple.pure fun w h => h.2 rfl

theorem handleControl_spec (c : Control) {E : WriterError → WriterState → Prop} :
    Triple (WriterState.Good disk initial M) (handleControl env c) (Fine disk initial M) E := by
  have hreply : ∀ r : Bool, ∀ w : WriterState, w.Good disk initial M →
      ({ w with log := w.log ++ [.reply (if r then some w.done else none)] } : WriterState).Good
        disk initial M := fun r w h => by
    refine good_emit h rfl (fun _ => rfl) (?_) (by simp)
    intro R hR
    cases r <;> simp_all
  cases c with
  | sync =>
    refine (attempt_spec .sync).bind fun r => now_spec.bind fun t => ?_
    refine Triple.bind (Q := Fine disk initial M)
      (Triple.modify fun _ h => good_congr h rfl rfl h.pending) fun _ => Triple.get_bind fun w => ?_
    refine Triple.bind (Q := Fine disk initial M) (Triple.modify ?_) fun _ =>
      Triple.pure fun _ h => h
    rintro w' ⟨h, rfl⟩
    exact hreply r w' h
  | finish =>
    refine (attempt_spec .finish).bind fun r => Triple.get_bind fun w => ?_
    refine Triple.bind (Q := Fine disk initial M) (Triple.modify ?_) fun _ =>
      Triple.pure fun _ h => h
    rintro w' ⟨h, rfl⟩
    exact hreply r w' h

theorem push_spec (offset : ℕ) (bytes : List UInt8) (hM : span (offset, bytes.length) ⊆ M) :
    Triple (WriterState.Good disk initial M) (push offset bytes) (Fine disk initial M)
      (Failed disk initial) := by
  refine Triple.modify fun w h => good_congr h rfl rfl fun m hm => ?_
  rcases List.mem_append.1 hm with hm | hm
  · exact h.pending m hm
  · rw [List.mem_singleton.1 hm]
    exact hM

theorem drain_spec (l : List Queued) (hl : ∀ q ∈ l, q.msg.Within M) :
    Triple (WriterState.Good disk initial M) (drain env l)
      (fun r w => w.Good disk initial M ∧ ∀ q ∈ r.2, q.msg.Within M) (Failed disk initial) := by
  induction l with
  | nil => exact Triple.pure fun _ h => ⟨h, by simp⟩
  | cons q rest ih =>
    obtain ⟨hq, hrest⟩ := List.forall_mem_cons.1 hl
    unfold drain
    refine Triple.get_bind fun w => Triple.pre (Triple.ite (fun _ => ?_) fun _ => ?_) fun _ h => h.1
    · cases hmsg : q.msg with
      | data offset bytes =>
        rw [hmsg] at hq
        exact (push_spec offset bytes hq).bind fun _ => ih hrest
      | control c =>
        refine flushPending_spec.bind fun _ => (handleControl_spec c).bind fun _ => ?_
        exact Triple.pure fun _ h => ⟨h, hrest⟩
    · exact Triple.pure fun _ h => ⟨h, hl⟩

theorem checkpointIfDue_spec :
    Triple (WriterState.Good disk initial M) (checkpointIfDue env) (Fine disk initial M)
      (Failed disk initial) := by
  unfold checkpointIfDue
  refine now_spec.bind fun t => Triple.get_bind fun w => Triple.pre ?_ fun _ h => h.1
  refine Triple.ite (fun _ => ?_) fun _ => Triple.pure fun _ h => h
  refine Triple.bind ((durableCheckpoint_spec .due).conseq (fun _ h => h) (fun _ _ h => h)
    fun _ _ h => h.1) fun _ => ?_
  exact now_spec.bind fun _ => Triple.modify fun _ h => good_congr h rfl rfl h.pending

/-- The task ends with what is done. -/
abbrev Returned (disk : Disk) (initial : RangeSet) (M : Set ℕ) (r : RangeSet) (w : WriterState) :
    Prop := w.Good disk initial M ∧ r = w.done

theorem done_spec :
    Triple (WriterState.Good disk initial M)
      (do return (← get).done : Program WriterState WriterError RangeSet)
      (Returned disk initial M) (Failed disk initial) := by
  refine Triple.get_bind fun w => Triple.pure ?_
  rintro w' ⟨h, rfl⟩
  exact ⟨h, rfl⟩

theorem close_spec :
    Triple (WriterState.Good disk initial M) (close env) (Returned disk initial M)
      (Failed disk initial) := by
  unfold close
  refine flushPending_spec.bind fun _ => Triple.bind ((durableCheckpoint_spec .closed).conseq
    (fun _ h => h) (fun _ _ h => h) fun _ _ h => h.1) fun _ => ?_
  exact done_spec

theorem serve_spec (rounds : ℕ) (l : List Queued) (hl : ∀ q ∈ l, q.msg.Within M) :
    Triple (WriterState.Good disk initial M) (serve env rounds l) (Returned disk initial M)
      (Failed disk initial) := by
  induction rounds generalizing l with
  | zero => exact close_spec
  | succ rounds ih =>
    cases l with
    | nil => exact close_spec
    | cons q rest =>
      obtain ⟨hq, hrest⟩ := List.forall_mem_cons.1 hl
      unfold serve
      cases hmsg : q.msg with
      | data offset bytes =>
        rw [hmsg] at hq
        refine (push_spec offset bytes hq).bind fun _ => (drain_spec rest hrest).bind fun r => ?_
        refine Triple.ite (fun _ => done_spec.pre fun _ h => h.1) fun _ => ?_
        by_cases hr : ∀ q ∈ r.2, q.msg.Within M
        · exact (flushPending_spec.bind fun _ => checkpointIfDue_spec.bind fun _ => ih r.2 hr).pre
            fun _ h => h.1
        · exact fun _ h => absurd h.2 hr
      | control c =>
        refine flushPending_spec.bind fun _ => (handleControl_spec c).bind fun exit => ?_
        exact Triple.ite (fun _ => done_spec) fun _ => ih rest hrest

theorem good_start (hi : initial.Ordered) :
    (start env initial).Good disk initial M where
  ordered := hi
  written := fun _ hb hnew => absurd hb hnew
  recorded := by
    rintro b ⟨v, hv⟩
    simp [start, lastWritten] at hv
  within := by
    rintro b ⟨v, hv⟩
    simp [start, lastWritten] at hv
  pending := by simp [start]
  replied := by simp [start]
  licensed := checkpointsLicensed_nil
  clean := by simp [start]

/-- However the task ends, its checkpoints are licensed; when it returns, what it returns is what
was done at first and what it has written. -/
theorem run_spec (env : Env) (disk : Disk) (hi : initial.Ordered) {inbox : List Queued}
    (hM : ∀ q ∈ inbox, q.msg.Within M) :
    Ends (Returned disk initial M) (Failed disk initial) (run env initial inbox) :=
  serve_spec inbox.length inbox hM _ (good_start hi)

theorem licensed_run (env : Env) (disk : Disk) (hi : initial.Ordered) (inbox : List Queued) :
    CheckpointsLicensed disk initial (run env initial inbox).2.log := by
  have hM : ∀ q ∈ inbox, q.msg.Within Set.univ := fun q _ => by
    cases q.msg with
    | data offset bytes => exact Set.subset_univ _
    | control c => trivial
  have h := run_spec env disk hi hM
  rcases hr : run env initial inbox with ⟨e | r, w⟩ <;> rw [hr] at h
  · exact h
  · exact h.1.licensed

/-! ### Runs in a quiet environment -/

section Quiet

theorem handleControl_finish_quiet (h : env.Quiet) (w : WriterState) :
    (handleControl env .finish).runFrom w = (.ok true, { w with
      calls := w.calls + 2
      log := w.log ++ [.sync (.requested .finish) true,
        .checkpoint (.requested .finish) w.done w.done.total true, .reply (some w.done)] }) := by
  simp [handleControl, attempt, durableCheckpoint, syncData, sinkCheckpoint, tick, emit,
    runFrom_bind, runFrom_tryCatch, runFrom_map, h.ok]

theorem flushPending_nil (hw : w.pending = []) : (flushPending env).runFrom w = (.ok ⟨⟩, w) := by
  simp [flushPending, runFrom_bind, hw]

theorem flushPending_quiet (h : env.Quiet) {offset : ℕ} {bytes : List UInt8}
    (hw : w.pending = [(offset, bytes)]) (hne : bytes ≠ [])
    (hmax : offset + bytes.length ≤ maxFileLen) :
    (flushPending env).runFrom w = (.ok ⟨⟩, { w with
      done := w.done.insert offset bytes.length
      sinceCheckpoint := w.sinceCheckpoint + bytes.length
      pending := []
      pendingBytes := 0
      calls := w.calls + 1
      log := w.log ++ [.write offset bytes true] }) := by
  have hsort : env.sortUnstable [(offset, bytes)] = [(offset, bytes)] :=
    List.perm_singleton.1 (env.sort_perm _)
  simp [flushPending, flushLoop, writeOut, writeAt, tick, emit, runFrom_bind, h.ok, hw, hsort, hne,
    hmax]

theorem checkpointIfDue_quiet (h : env.Quiet) (hdue : w.sinceCheckpoint < checkpointBytes) :
    (checkpointIfDue env).runFrom w = (.ok ⟨⟩, { w with calls := w.calls + 1 }) := by
  have hint : checkpointInterval ≠ 0 := by decide
  simp [checkpointIfDue, now, tick, runFrom_bind, h.clock, Nat.not_le.2 hdue, hint]

theorem run_finish (h : env.Quiet) (initial : RangeSet) (late : Bool) :
    (run env initial [⟨.control .finish, late⟩]).1 = .ok initial ∧
      (run env initial [⟨.control .finish, late⟩]).2.log = [.sync (.requested .finish) true,
        .checkpoint (.requested .finish) initial initial.total true, .reply (some initial)] := by
  simp only [run, List.length_cons, List.length_nil, serve, start, runFrom_bind]
  rw [flushPending_nil rfl]
  simp only [handleControl_finish_quiet h, if_true, runFrom_bind, runFrom_get, runFrom_pure]
  exact ⟨trivial, rfl⟩

theorem run_chunk (h : env.Quiet) (initial : RangeSet) {offset : ℕ} {bytes : List UInt8}
    (hne : bytes ≠ []) (hmax : offset + bytes.length ≤ maxFileLen)
    (hdue : bytes.length < checkpointBytes) :
    (run env initial [⟨.data offset bytes, false⟩, ⟨.control .finish, true⟩]).2.log =
      [.write offset bytes true, .sync (.requested .finish) true,
        .checkpoint (.requested .finish) (initial.insert offset bytes.length)
          (initial.insert offset bytes.length).total true,
        .reply (some (initial.insert offset bytes.length))] := by
  simp only [run, List.length_cons, List.length_nil, serve, push, drain, runFrom_bind,
    runFrom_modify, runFrom_get, start, List.nil_append, Bool.true_eq_false, and_false, if_false,
    runFrom_pure, Bool.false_eq_true]
  rw [flushPending_quiet h rfl hne hmax]
  simp only
  rw [checkpointIfDue_quiet h (by simpa using hdue)]
  simp only
  rw [flushPending_nil rfl]
  simp only [handleControl_finish_quiet h, if_true, runFrom_bind, runFrom_get, runFrom_pure]
  rfl

/-- A chunk that would end past the largest file size. -/
theorem flushPending_rejected {offset : ℕ} {bytes : List UInt8}
    (hw : w.pending = [(offset, bytes)]) (hne : bytes ≠ [])
    (hmax : ¬offset + bytes.length ≤ maxFileLen) :
    (flushPending env).runFrom w = (.error .write, { w with
      pending := []
      calls := w.calls + 1
      log := w.log ++ [.write offset (bytes.take (env.outcome w.calls).landed) false] }) := by
  have hsort : env.sortUnstable [(offset, bytes)] = [(offset, bytes)] :=
    List.perm_singleton.1 (env.sort_perm _)
  simp [flushPending, flushLoop, writeOut, writeAt, failWith, tick, emit, runFrom_bind, hw, hsort,
    hne, hmax]

theorem exists_write_run_chunk (h : env.Quiet) (hland : ∀ n, 0 < (env.outcome n).landed)
    (initial : RangeSet) (offset : ℕ) {bytes : List UInt8} (hne : bytes ≠ [])
    (hdue : bytes.length < checkpointBytes) :
    ∃ bytes' ok, IoEvent.write offset bytes' ok ∈ (run env initial
      [⟨.data offset bytes, false⟩, ⟨.control .finish, true⟩]).2.log ∧ bytes' ≠ [] := by
  by_cases hmax : offset + bytes.length ≤ maxFileLen
  · exact ⟨bytes, true, by rw [run_chunk h initial hne hmax hdue]; simp, hne⟩
  · refine ⟨bytes.take (env.outcome 1).landed, false, ?_, ?_⟩
    · simp only [run, List.length_cons, List.length_nil, serve, push, drain, runFrom_bind,
        runFrom_modify, runFrom_get, start, List.nil_append, Bool.true_eq_false, and_false,
        if_false, runFrom_pure, Bool.false_eq_true]
      rw [flushPending_rejected rfl hne hmax]
      exact List.mem_singleton.2 rfl
    · have := hland 1
      rw [Ne, List.take_eq_nil_iff, not_or]
      exact ⟨by omega, hne⟩

end Quiet

end Writer

/-- **Checkpoint durability.**  Whatever is sent, however the queue is drained and whichever calls
fail, each call of the sink is made with the right count, every byte it claims beyond the initial
set was written by a successful write and is durable with the value last written, and no write and
no automatic checkpoint has failed before. -/
theorem checkpoint_durable (env : Env) (disk : Disk) {initial : RangeSet} (hi : initial.Ordered)
    (inbox : List Queued) {pre post : List IoEvent} {cause : Cause} {ranges : RangeSet} {n : ℕ}
    {ok : Bool}
    (h : (Writer.run env initial inbox).2.log = pre ++ .checkpoint cause ranges n ok :: post) :
    n = ranges.total ∧
      (∀ b ∈ ranges.covered, b ∉ initial.covered →
        ∃ v, lastWritten pre b = some v ∧ (disk.replay pre).durable.data b = v ∧
          b < (disk.replay pre).durable.len) ∧
      ∀ e ∈ pre, e.fatal = false :=
  have hlicensed := Writer.licensed_run env disk hi inbox pre cause ranges n ok post h
  ⟨hlicensed.count, hlicensed.durable, hlicensed.clean⟩

/-- Two overlapping chunks and a `Sync` that is found in the middle of a batch: the checkpoint
claims three bytes. -/
theorem checkpoint_durable_overlap :
    ∃ pre post, (Writer.run .calm .new [⟨.data 1 [9, 8], false⟩, ⟨.data 0 [1, 2], false⟩,
        ⟨.control .sync, false⟩]).2.log =
          pre ++ .checkpoint (.requested .sync) ⟨[(0, 3)]⟩ 3 true :: post ∧
      ∀ b ∈ (⟨[(0, 3)]⟩ : RangeSet).covered, b ∉ RangeSet.new.covered →
        ∃ v, lastWritten pre b = some v ∧
          ((⟨.empty, .empty⟩ : Disk).replay pre).durable.data b = v ∧
          b < ((⟨.empty, .empty⟩ : Disk).replay pre).durable.len := by
  have hrun : (Writer.run .calm .new [⟨.data 1 [9, 8], false⟩, ⟨.data 0 [1, 2], false⟩,
      ⟨.control .sync, false⟩]).2.log =
        [.write 0 [1, 2] true, .write 1 [9, 8] true, .sync (.requested .sync) true] ++
          .checkpoint (.requested .sync) ⟨[(0, 3)]⟩ 3 true ::
            [.reply (some ⟨[(0, 3)]⟩), .sync .closed true,
              .checkpoint .closed ⟨[(0, 3)]⟩ 3 true] := by
    decide +kernel
  obtain ⟨-, h, -⟩ := checkpoint_durable .calm ⟨.empty, .empty⟩ RangeSet.ordered_new _ hrun
  exact ⟨_, _, hrun, h⟩

end SwiftLoad
