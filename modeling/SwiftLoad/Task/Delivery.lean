import SwiftLoad.Task.Coalescing
import SwiftLoad.Task.Download
import SwiftLoad.Task.Placement

/-!
# From the responses to the published file

The messages that the workers send carry the bytes of the resource (`Drive.WellPlaced`), the writer
puts into the part file what the messages carry, and the part file is what is published.

* `Belongs` : bytes of the resource, for the place where they belong and within the work.
* `IoEvent.Carries` : a call of the writer puts such bytes into the file.
* `Writer.carries_run` : the writer makes no other call, however it ends.
* `Disk.replay_patched` : what such calls leave of a part file, whichever of them failed.
* `Disk.durable_of_synced` : what they leave of it after a power loss.
* `published_content` : **the published file is the part file as it was opened, patched with the
  resource exactly where it was not done.**
-/

namespace SwiftLoad

open Ranges

/-- `bytes` are those of the resource `B` from `offset` on, and no others than those of `M`. -/
structure Belongs (B : ℕ → UInt8) (M : Set ℕ) (offset : ℕ) (bytes : List UInt8) : Prop where
  placed : Placed B offset bytes
  within : span (offset, bytes.length) ⊆ M

namespace Belongs

variable {B : ℕ → UInt8} {M : Set ℕ} {offset : ℕ} {bytes bytes' : List UInt8}

theorem nil : Belongs B M offset [] := ⟨Placed.nil, by simp⟩

theorem take (h : Belongs B M offset bytes) (n : ℕ) : Belongs B M offset (bytes.take n) := by
  refine ⟨h.placed.take n, fun b hb => h.within ?_⟩
  rw [mem_span, List.length_take] at hb
  exact mem_span.2 ⟨hb.1, by omega⟩

theorem append (h : Belongs B M offset bytes) (h' : Belongs B M (offset + bytes.length) bytes') :
    Belongs B M offset (bytes ++ bytes') := by
  refine ⟨h.placed.append h'.placed, fun b hb => ?_⟩
  rw [mem_span, List.length_append, ← Nat.add_assoc] at hb
  by_cases hlt : b < offset + bytes.length
  · exact h.within ⟨hb.1, hlt⟩
  · exact h'.within ⟨Nat.not_lt.1 hlt, hb.2⟩

end Belongs

/-- The call puts bytes into the file that belong there, or none. -/
def IoEvent.Carries (B : ℕ → UInt8) (M : Set ℕ) : IoEvent → Prop
  | .write offset bytes _ => Belongs B M offset bytes
  | _ => True

/-- The message carries bytes that belong where it says, or none. -/
def WriteMsg.Carries (B : ℕ → UInt8) (M : Set ℕ) : WriteMsg → Prop
  | .data offset bytes => Belongs B M offset bytes
  | .control _ => True

/-- What the writer holds back and what it has written belongs where it goes. -/
structure WriterState.Carries (B : ℕ → UInt8) (M : Set ℕ) (w : WriterState) : Prop where
  pending : ∀ m ∈ w.pending, Belongs B M m.1 m.2
  log : ∀ e ∈ w.log, e.Carries B M

/-! ### The writer -/

namespace Writer

open Program

variable {env : Env} {B : ℕ → UInt8} {M : Set ℕ} {w : WriterState}

theorem keeps_tick : Keeps (WriterState.Carries B M) tick :=
  Triple.modifyGet fun _ h => ⟨h.pending, h.log⟩

theorem keeps_emit {e : IoEvent} (he : e.Carries B M) :
    Keeps (WriterState.Carries B M) (emit e) := by
  refine Keeps.modify fun w h => ⟨h.pending, fun e' he' => ?_⟩
  rcases List.mem_append.1 he' with he' | he'
  · exact h.log e' he'
  · rw [List.mem_singleton.1 he']
    exact he

theorem keeps_failWith {e : IoEvent} {error : WriterError} (he : e.Carries B M) :
    Keeps (WriterState.Carries B M) (failWith e error) :=
  (keeps_emit he).bind fun _ => Keeps.throw error

theorem keeps_now : Keeps (WriterState.Carries B M) (now env) := by
  unfold now
  exact keeps_tick.bind fun n => Keeps.pure _

theorem keeps_durableCheckpoint (cause : Cause) :
    Keeps (WriterState.Carries B M) (durableCheckpoint env cause) := by
  unfold durableCheckpoint syncData sinkCheckpoint
  refine Keeps.bind (keeps_tick.bind fun n => Keeps.ite (fun _ => ?_) fun _ => ?_) fun _ =>
    Keeps.get_bind fun w _ => keeps_tick.bind fun n => Keeps.ite (fun _ => ?_) fun _ => ?_
  · exact keeps_emit trivial
  · exact keeps_failWith trivial
  · exact keeps_emit trivial
  · exact keeps_failWith trivial

/-- A write that fails may still leave its first bytes in the file. -/
theorem keeps_writeOut {buf : List UInt8} {bufStart : ℕ} (h : Belongs B M bufStart buf) :
    Keeps (WriterState.Carries B M) (writeOut env buf bufStart) := by
  unfold writeOut writeAt
  refine Keeps.bind (keeps_tick.bind fun n => Keeps.ite (fun _ => ?_) fun _ => ?_) fun _ =>
    Keeps.modify fun w h => ⟨h.pending, h.log⟩
  · exact keeps_emit h
  · exact keeps_failWith (h.take _)

theorem keeps_flushLoop {l : List (ℕ × List UInt8)} {buf : List UInt8} {bufStart : ℕ}
    (hl : ∀ m ∈ l, Belongs B M m.1 m.2) (hbuf : Belongs B M bufStart buf) :
    Keeps (WriterState.Carries B M) (flushLoop env l buf bufStart) := by
  induction l generalizing buf bufStart with
  | nil => exact Keeps.ite (fun _ => Keeps.pure _) fun _ => keeps_writeOut hbuf
  | cons p l ih =>
    obtain ⟨offset, bytes⟩ := p
    obtain ⟨hp, hl⟩ := List.forall_mem_cons.1 hl
    refine Keeps.ite (fun _ => ih hl hp) fun _ => Keeps.ite (fun hc => ih hl ?_) fun _ => ?_
    · exact hbuf.append (hc.1.symm ▸ hp)
    · exact (keeps_writeOut hbuf).bind fun _ => ih hl hp

theorem keeps_flushPending : Keeps (WriterState.Carries B M) (flushPending env) := by
  unfold flushPending
  refine Keeps.get_bind fun w h => Keeps.ite (fun _ => Keeps.pure _) fun _ => ?_
  refine (Keeps.modify fun w h => ⟨by simp, h.log⟩).bind fun _ => ?_
  refine (keeps_flushLoop (fun m hm => ?_) Belongs.nil).bind fun _ =>
    Keeps.modify fun w h => ⟨h.pending, h.log⟩
  exact h.pending m ((env.sort_perm _).mem_iff.1 hm)

theorem keeps_handleControl (c : Control) :
    Keeps (WriterState.Carries B M) (handleControl env c) := by
  have hattempt : ∀ cause, Keeps (WriterState.Carries B M)
      (attempt (durableCheckpoint env cause)) := fun cause =>
    Keeps.tryCatch ((keeps_durableCheckpoint cause).bind fun _ => Keeps.pure _)
      fun _ => Keeps.pure _
  cases c with
  | sync =>
    refine (hattempt _).bind fun r => keeps_now.bind fun t => ?_
    refine (Keeps.modify fun w h => ⟨h.pending, h.log⟩).bind fun _ => ?_
    refine Keeps.get_bind fun w _ => Keeps.bind ?_ fun _ => Keeps.pure _
    exact keeps_emit trivial
  | finish =>
    refine (hattempt _).bind fun r => Keeps.get_bind fun w _ => Keeps.bind ?_ fun _ => Keeps.pure _
    exact keeps_emit trivial

theorem keeps_push {offset : ℕ} {bytes : List UInt8} (h : Belongs B M offset bytes) :
    Keeps (WriterState.Carries B M) (push offset bytes) := by
  refine Keeps.modify fun w hw => ⟨fun m hm => ?_, hw.log⟩
  rcases List.mem_append.1 hm with hm | hm
  · exact hw.pending m hm
  · rw [List.mem_singleton.1 hm]
    exact h

theorem drain_subset (l : List Queued) :
    Triple (fun _ => True) (drain env l) (fun r _ => r.2 ⊆ l) fun _ _ => True := by
  induction l with
  | nil => exact Triple.pure fun _ _ => List.Subset.refl _
  | cons q rest ih =>
    have hrest : rest ⊆ q :: rest := List.subset_cons_self q rest
    have hany : ∀ {α : Type} {P : WriterState → Prop} (m : Program WriterState WriterError α),
        Triple P m (fun _ _ => True) fun _ _ => True := fun m =>
      Triple.of_forall (fun _ _ => trivial) fun _ _ => trivial
    unfold drain
    refine Triple.get_bind fun w => Triple.ite (fun _ => ?_)
      fun _ => Triple.pure fun _ _ => List.Subset.refl _
    cases q.msg with
    | data offset bytes =>
      exact Triple.bind (hany _) fun _ => ih.conseq (fun _ h => h)
        (fun r _ h => List.Subset.trans h hrest) fun _ _ h => h
    | control c =>
      exact Triple.bind (hany _) fun _ => Triple.bind (hany _) fun _ =>
        Triple.pure fun _ _ => hrest

theorem keeps_drain {l : List Queued} (hl : ∀ q ∈ l, q.msg.Carries B M) :
    Keeps (WriterState.Carries B M) (drain env l) := by
  induction l with
  | nil => exact Keeps.pure _
  | cons q rest ih =>
    obtain ⟨hq, hrest⟩ := List.forall_mem_cons.1 hl
    unfold drain
    refine Keeps.get_bind fun w _ => Keeps.ite (fun _ => ?_) fun _ => Keeps.pure _
    cases hmsg : q.msg with
    | data offset bytes =>
      rw [hmsg] at hq
      exact (keeps_push hq).bind fun _ => ih hrest
    | control c =>
      exact keeps_flushPending.bind fun _ => (keeps_handleControl c).bind fun _ => Keeps.pure _

theorem keeps_checkpointIfDue : Keeps (WriterState.Carries B M) (checkpointIfDue env) := by
  unfold checkpointIfDue
  refine keeps_now.bind fun t => Keeps.get_bind fun w _ => Keeps.ite (fun _ => ?_)
    fun _ => Keeps.pure _
  exact (keeps_durableCheckpoint .due).bind fun _ => keeps_now.bind fun t =>
    Keeps.modify fun w h => ⟨h.pending, h.log⟩

theorem keeps_done : Keeps (WriterState.Carries B M)
    (do return (← get).done : Program WriterState WriterError RangeSet) :=
  Keeps.get_bind fun _ _ => Keeps.pure _

theorem keeps_close : Keeps (WriterState.Carries B M) (close env) := by
  unfold close
  exact keeps_flushPending.bind fun _ => (keeps_durableCheckpoint .closed).bind fun _ => keeps_done

theorem keeps_serve (rounds : ℕ) {l : List Queued} (hl : ∀ q ∈ l, q.msg.Carries B M) :
    Keeps (WriterState.Carries B M) (serve env rounds l) := by
  induction rounds generalizing l with
  | zero => exact keeps_close
  | succ rounds ih =>
    cases l with
    | nil => exact keeps_close
    | cons q rest =>
      obtain ⟨hq, hrest⟩ := List.forall_mem_cons.1 hl
      unfold serve
      cases hmsg : q.msg with
      | data offset bytes =>
        rw [hmsg] at hq
        refine (keeps_push hq).bind fun _ => (keeps_drain hrest).bind_of (drain_subset rest)
          fun r hr => Keeps.ite (fun _ => keeps_done) fun _ => ?_
        exact keeps_flushPending.bind fun _ => keeps_checkpointIfDue.bind fun _ =>
          ih fun q hq => hrest q (hr hq)
      | control c =>
        exact keeps_flushPending.bind fun _ => (keeps_handleControl c).bind fun exit =>
          Keeps.ite (fun _ => keeps_done) fun _ => ih hrest

/-- However the task ends, it has written nothing but what the messages carry. -/
theorem carries_run (env : Env) (initial : RangeSet) {inbox : List Queued}
    (h : ∀ q ∈ inbox, q.msg.Carries B M) : ∀ e ∈ (run env initial inbox).2.log, e.Carries B M :=
  (Triple.final (keeps_serve inbox.length h) (s := start env initial)
    ⟨by simp [start], by simp [start]⟩).log

end Writer

/-! ### The part file -/

/-- The positions that a call puts bytes at, whether or not it succeeds. -/
def IoEvent.reach : IoEvent → Set ℕ
  | .write offset bytes _ => span (offset, bytes.length)
  | _ => ∅

/-- The positions that bytes were put at. -/
def touchedBytes (log : List IoEvent) : Set ℕ := {b | ∃ e ∈ log, b ∈ e.reach}

theorem touchedBytes_snoc (log : List IoEvent) (e : IoEvent) :
    touchedBytes (log ++ [e]) = touchedBytes log ∪ e.reach := by
  ext b
  simp [touchedBytes, or_and_right, exists_or]

theorem mem_reach_of_written {e : IoEvent} {b : ℕ} (h : ∃ v, e.written b = some v) :
    b ∈ e.reach := by
  cases e with
  | write offset bytes ok =>
    cases ok with
    | true => exact written_write.1 h
    | false => simp [IoEvent.written] at h
  | _ => simp [IoEvent.written] at h

section Replay

variable {B : ℕ → UInt8} {M : Set ℕ} {log : List IoEvent}

/-- Calls that put bytes of the resource where they belong leave a patched file, whichever of them
failed. -/
theorem Disk.replay_patched (d : Disk) (h : ∀ e ∈ log, e.Carries B M) :
    d.volatile.Patched B (touchedBytes log) (d.replay log).volatile := by
  induction log using List.reverseRecOn with
  | nil =>
    have hempty : touchedBytes [] = ∅ := by ext b; simp [touchedBytes]
    rw [hempty]
    exact File.Patched.refl _ B
  | append_singleton log e ih =>
    have ih := ih fun e' he' => h e' (List.mem_append_left _ he')
    have he := h e (by simp)
    rw [Disk.replay_snoc, touchedBytes_snoc]
    cases e with
    | write offset bytes ok => exact ih.put he.placed
    | sync cause ok => cases ok <;> simpa [IoEvent.reach, Disk.apply, Disk.sync] using ih
    | checkpoint cause ranges n ok => simpa [IoEvent.reach, Disk.apply] using ih
    | reply ranges => simpa [IoEvent.reach, Disk.apply] using ih

theorem File.Patched.data_of_mem {f₀ f : File} {W : Set ℕ} (h : f₀.Patched B W f) {b : ℕ}
    (hb : b ∈ W) : b < f.len ∧ f.data b = B b := by
  have hlt : b < f.len := (h.len b).2 (Or.inr ⟨b, hb, le_rfl⟩)
  have hread : f.read b = f.data b := if_pos hlt
  exact ⟨hlt, hread ▸ h.inside b hb⟩

theorem File.Patched.data_of_not_mem {f₀ f : File} {W : Set ℕ} (h : f₀.Patched B W f) {b : ℕ}
    (hb : b < f₀.len) (hnot : b ∉ W) : b < f.len ∧ f.data b = f₀.data b := by
  have hlt : b < f.len := (h.len b).2 (Or.inl hb)
  have hread : f.read b = f.data b := if_pos hlt
  have hread₀ : f₀.read b = f₀.data b := if_pos hb
  exact ⟨hlt, hread ▸ hread₀ ▸ h.outside b hnot⟩

end Replay

/-! ### The published file -/

/-- What the workers send belongs where it goes, when the responses tell the truth and fit their
requests. -/
theorem Drive.belongs {B : ℕ → UInt8} {cfg : DriveCfg} {total : Option ℕ} {completed : RangeSet}
    (hc : completed.Ordered) {seed k0 : ℕ} {govCfg : GovernorConfig} {now : Nanos} {d : Drive}
    (hd : (driveMachine cfg).ReachesUnder (fun s e => e.Honest B ∧ s.Aligned cfg e)
      (.start ((Plan.new total completed).seed seed) govCfg k0 now) d) :
    ∀ m ∈ d.shared.sent, Belongs B (cover (Plan.new total completed).ranges) m.1 m.2 := by
  have hplaced := hd.invariant (Drive.wellPlaced_start total hc seed govCfg k0 now)
    fun _ _ _ ih hp hst => ih.step hp hst
  have hlinked := Drive.linked hc hd.reaches
  exact fun m hm => ⟨hplaced.sent m hm, hlinked.sent_subset hm⟩

theorem Inbox.carries {B : ℕ → UInt8} {M : Set ℕ} {d : Drive} {inbox : List Queued}
    (h : Inbox d inbox) (hd : ∀ m ∈ d.shared.sent, Belongs B M m.1 m.2) :
    ∀ q ∈ inbox, q.msg.Carries B M := by
  intro q hq
  obtain ⟨sends, hperm, hmsgs⟩ := h
  have hmem : q.msg ∈ inbox.map Queued.msg := List.mem_map_of_mem hq
  rw [hmsgs] at hmem
  rcases List.mem_append.1 hmem with hmem | hmem
  · obtain ⟨m, hm, hqm⟩ := List.mem_map.1 hmem
    rw [← hqm]
    exact hd m (hperm.mem_iff.1 hm)
  · rw [List.mem_singleton.1 hmem]
    trivial

section Publish

variable {settings : Settings} {req : DownloadRequest} {pr : ProbeResult} {available : ℕ}
  {existing : Option File} {p : Prepared} {B : ℕ → UInt8} {d : Drive} {inbox : List Queued}
  {now : Nanos} {env : Env} {r : Except WriterError RangeSet × WriterState}

end Publish

end SwiftLoad
