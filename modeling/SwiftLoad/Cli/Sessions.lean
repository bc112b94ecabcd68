import SwiftLoad.Cli.Commands
import SwiftLoad.Machine.Basic

/-!
# Sessions of one download

The life of one record and its part file over many sessions (`sessionMachine`).  A session reads
the resume state, prepares the download, and then makes the calls of the writer one by one; it ends
by publishing the file, by returning, or by a crash between two calls.  Between sessions the user
may delete the part file.

`Ledger.history` is what was done to the part file since it was created, so `syncedBytes` of it are
the bytes that were written to this file and synced.  A committed row survives a crash.

* `Ledger.settled` : the condition: no session ends while the record still claims bytes of an
  earlier part file.
* `Ledger.Sound` : the invariant: what the record claims was synced to this part file.
* `sessions_trust_synced` : **under the condition a session trusts only synced bytes.**
* `sessions_trust_phantom` : a crash before the first checkpoint revives a discarded claim.
-/

namespace SwiftLoad

/-- A session that runs. -/
structure Session where
  /-- What the planner and the writer took as done. -/
  completed : RangeSet
  total : Option ℕ
  /-- The answer of the writer at the end. -/
  answer : Option RangeSet
  /-- The calls the writer has still to make. -/
  todo : List IoEvent
  /-- The record claims bytes of a part file that was missing, and no checkpoint has replaced the
  claim. -/
  stale : Bool

/-- The record and the part file. -/
structure Ledger where
  record : DownloadRecord
  part : Option File
  /-- The calls made on the part file since it was created. -/
  history : List IoEvent
  session : Option Session

/-- What can happen. -/
inductive SessionEvent
  /-- A session starts: what it is given and finds, what its writer will receive, and how the
  system calls will come out. -/
  | start (settings : Settings) (expectedSha256 : Option Name) (hint : Option HostHint)
      (pr : ProbeResult) (available : ℕ) (env : Env) (inbox : List Queued)
  /-- A session that gets no further than `open_part`: the part file exists, but was not
  extended. -/
  | openOnly
  /-- The writer makes its next call. -/
  | call
  /-- The part file gets its final name. -/
  | publish
  /-- The session returns or crashes. -/
  | stop
  /-- `mark_clean` at the end of a command, or `clear_clean_flags` at the start of one. -/
  | markClean (clean : Bool)
  /-- The user deletes the part file. -/
  | delete

/-- What a call does to the record. -/
def IoEvent.record : IoEvent → DownloadRecord → DownloadRecord
  | .checkpoint _ ranges bytesDone true, r => r.checkpoint ranges bytesDone
  | _, r => r

/-- The call replaces the claim of the record. -/
def IoEvent.records : IoEvent → Bool
  | .checkpoint _ _ _ ok => ok
  | _ => false

namespace Ledger

/-- What `download` sets up for the record. -/
def prepare (settings : Settings) (expectedSha256 : Option Name) (hint : Option HostHint)
    (pr : ProbeResult) (available : ℕ) (l : Ledger) : Except DownloadError Prepared :=
  SwiftLoad.prepare settings ((l.record.resumed settings).request expectedSha256 hint) pr available
    l.part

/-- The calls made on the part file once it is open; one that was missing has just been created. -/
def opened (l : Ledger) : List IoEvent := if l.part.isNone then [] else l.history

/-- The session that starts from what was set up. -/
def begin (pr : ProbeResult) (env : Env) (inbox : List Queued) (p : Prepared) (l : Ledger) :
    Ledger :=
  { l with
    part := some p.file
    history := l.opened
    session := some
      { completed := p.completed
        total := pr.totalSize
        answer := finalRanges (Writer.run env p.completed inbox)
        todo := (Writer.run env p.completed inbox).2.log
        stale := l.part.isNone && !l.record.completedRanges.isEmpty } }

/-- One step of a session, or of the user. -/
def step (l : Ledger) : SessionEvent → Option Ledger
  | .start settings expectedSha256 hint pr available env inbox =>
    match l.session with
    | some _ => none
    | none =>
      match l.prepare settings expectedSha256 hint pr available with
      | .error _ => some l
      | .ok p => some (l.begin pr env inbox p)
  | .openOnly =>
    if l.session.isSome then none
    else some { l with part := some (l.part.getD .empty), history := l.opened }
  | .call =>
    match l.session with
    | some ⟨completed, total, answer, e :: todo, stale⟩ =>
      some
        { record := e.record l.record
          part := l.part.map fun file => ((⟨file, file⟩ : Disk).apply e).volatile
          history := l.history ++ [e]
          session := some ⟨completed, total, answer, todo, stale && !e.records⟩ }
    | _ => none
  | .publish =>
    match l.session with
    | some ⟨_, total, some ranges, [], _⟩ =>
      if total.all (ranges.containsAll 0) then some { l with part := none, session := none }
      else none
    | _ => none
  | .stop => l.session.map fun _ => { l with session := none }
  | .markClean clean =>
    if l.session.isSome then none else some { l with record := l.record.markClean clean }
  | .delete => if l.session.isSome then none else some { l with part := none }

/-- The running session has not replaced a claim on an earlier part file. -/
def stale (l : Ledger) : Bool := l.session.any Session.stale

/-- No session ends while the record still claims bytes of an earlier part file. -/
def settled (l : Ledger) : SessionEvent → Bool
  | .stop => !l.stale
  | .openOnly => l.part.isSome || l.record.completedRanges.isEmpty
  | _ => true

end Ledger

/-- Reconciling only gives bytes back. -/
theorem reconcile_subset (completed : RangeSet) (existing : Option File) (file : File)
    (total : Option ℕ) : (reconcile completed existing file total).covered ⊆ completed.covered := by
  unfold reconcile
  split_ifs
  · simp
  · cases total with
    | none => exact (RangeSet.covered_truncateTo _ _).trans_subset Set.inter_subset_left
    | some total => exact subset_rfl

namespace Ledger

variable {l l' : Ledger} {settings : Settings} {expectedSha256 : Option Name}
  {hint : Option HostHint} {pr : ProbeResult} {available : ℕ} {p : Prepared}

theorem completed_subset
    (h : l.prepare settings expectedSha256 hint pr available = .ok p) :
    p.completed.covered ⊆ l.record.completedRanges.covered := by
  obtain ⟨-, rfl⟩ := prepare_eq_ok.1 h
  exact (reconcile_subset _ _ _ _).trans (DownloadRecord.resumeState_subset _)

theorem ordered_completed (hr : l.record.completedRanges.Ordered)
    (h : l.prepare settings expectedSha256 hint pr available = .ok p) : p.completed.Ordered := by
  obtain ⟨-, rfl⟩ := prepare_eq_ok.1 h
  exact ordered_reconcile (DownloadRecord.ordered_resumeState hr _) _ _ _

theorem completed_of_missing (hr : l.record.completedRanges.Ordered) (hpart : l.part = none)
    (h : l.prepare settings expectedSha256 hint pr available = .ok p) :
    p.completed.covered = ∅ := by
  obtain ⟨-, rfl⟩ := prepare_eq_ok.1 h
  have hord : (l.record.resumed settings).completedRanges.Ordered :=
    DownloadRecord.ordered_resumeState hr _
  by_cases hempty : (l.record.resumed settings).completedRanges.isEmpty = true
  · refine Set.subset_eq_empty (reconcile_subset _ _ _ _) ?_
    exact (RangeSet.isEmpty_iff hord).1 hempty
  · show (reconcile (l.record.resumed settings).completedRanges l.part _ _).covered = ∅
    simp [reconcile, hpart, hempty]

/-- The session that runs has made the first calls of a run of the writer; what it took as done was
synced before. -/
structure Replays (ses : Session) (history : List IoEvent) : Prop where
  ordered : ses.completed.Ordered
  run : ∃ before past env inbox, history = before ++ past ∧
    ses.completed.covered ⊆ syncedBytes before ∧
    (Writer.run env ses.completed inbox).2.log = past ++ ses.todo

/-- What the record claims was written to this part file and synced, unless the claim is stale. -/
structure Sound (l : Ledger) : Prop where
  ordered : l.record.completedRanges.Ordered
  synced : l.part ≠ none → l.stale = false →
    l.record.completedRanges.covered ⊆ syncedBytes l.history
  running : ∀ ses, l.session = some ses → Replays ses l.history

theorem Sound.begin (h : l.Sound) (hidle : l.session = none)
    (hp : l.prepare settings expectedSha256 hint pr available = .ok p) (env : Env)
    (inbox : List Queued) : (l.begin pr env inbox p).Sound := by
  have hord := ordered_completed h.ordered hp
  refine ⟨h.ordered, ?_, ?_⟩
  · intro _ hfresh
    cases hpart : l.part with
    | none =>
      -- the claim is not stale, so it is empty
      have hempty : l.record.completedRanges.isEmpty = true := by
        simpa [stale, Ledger.begin, hpart] using hfresh
      show l.record.completedRanges.covered ⊆ _
      rw [(RangeSet.isEmpty_iff h.ordered).1 hempty]
      exact Set.empty_subset _
    | some file =>
      have := h.synced (by simp [hpart]) (by simp [stale, hidle])
      simpa [Ledger.begin, opened, hpart] using this
  · intro ses hses
    obtain rfl := Option.some.inj hses
    refine ⟨hord, (l.begin pr env inbox p).history, [], env, inbox, (List.append_nil _).symm, ?_,
      rfl⟩
    cases hpart : l.part with
    | none =>
      show p.completed.covered ⊆ _
      rw [completed_of_missing h.ordered hpart hp]
      exact Set.empty_subset _
    | some file =>
      have := (completed_subset hp).trans (h.synced (by simp [hpart]) (by simp [stale, hidle]))
      simpa [Ledger.begin, opened, hpart] using this

theorem Sound.call (h : l.Sound) (hs : l.step .call = some l') : l'.Sound := by
  simp only [step] at hs
  split at hs
  · rename_i completed total answer e todo fresh hses
    obtain rfl := Option.some.inj hs
    obtain ⟨hord, before, past, env, inbox, hhist, hsub, hlog⟩ := h.running _ hses
    have hlog' : (Writer.run env completed inbox).2.log = past ++ e :: todo := hlog
    have hgrow : syncedBytes l.history ⊆ syncedBytes (l.history ++ [e]) := by
      simpa using syncedBytes_append [] l.history [e]
    have hreplays : Replays ⟨completed, total, answer, todo, fresh && !e.records⟩
        (l.history ++ [e]) :=
      ⟨hord, before, past ++ [e], env, inbox, by rw [hhist, List.append_assoc], hsub, by
        rw [hlog', List.append_assoc]; rfl⟩
    have hrunning : ∀ ses, some (⟨completed, total, answer, todo, fresh && !e.records⟩ : Session) =
        some ses → Replays ses (l.history ++ [e]) := fun ses hses => by
      obtain rfl := Option.some.inj hses
      exact hreplays
    have hpart : l.part.map (fun file => ((⟨file, file⟩ : Disk).apply e).volatile) ≠ none →
        l.part ≠ none := fun hne hnone => hne (by rw [hnone]; rfl)
    by_cases hrec : ∃ cause ranges n, e = .checkpoint cause ranges n true
    · -- the claim is replaced by one that the writer may make
      obtain ⟨cause, ranges, n, rfl⟩ := hrec
      have hl := Writer.licensed_run env ⟨.empty, .empty⟩ hord inbox _ _ _ _ _ _ hlog'
      refine ⟨hl.ordered, ?_, hrunning⟩
      intro _ _ b hb
      by_cases hold : b ∈ completed.covered
      · have := syncedBytes_append [] before (past ++ [.checkpoint cause ranges n true]) (hsub hold)
        simpa [hhist] using this
      · have := syncedBytes_append before past [.checkpoint cause ranges n true]
          (hl.synced b hb hold)
        simpa [hhist] using this
    · have hkeep : e.record l.record = l.record ∧ e.records = false := by
        cases e with
        | checkpoint cause ranges n ok =>
          cases ok with
          | true => exact absurd ⟨cause, ranges, n, rfl⟩ hrec
          | false => exact ⟨rfl, rfl⟩
        | _ => exact ⟨rfl, rfl⟩
      refine ⟨hkeep.1.symm ▸ h.ordered, ?_, hrunning⟩
      intro hne hfresh
      have hold : l.stale = false := by
        simpa [stale, hkeep.2, hses] using hfresh
      show (e.record l.record).completedRanges.covered ⊆ _
      rw [hkeep.1]
      exact (h.synced (hpart hne) hold).trans hgrow
  · simp at hs

theorem Sound.step (h : l.Sound) {e : SessionEvent} (hp : l.settled e = true)
    (hs : l.step e = some l') : l'.Sound := by
  cases e with
  | start settings expectedSha256 hint pr available env inbox =>
    simp only [Ledger.step] at hs
    split at hs
    · simp at hs
    · rename_i hidle
      split at hs
      · obtain rfl := Option.some.inj hs
        exact h
      · rename_i p hprep
        obtain rfl := Option.some.inj hs
        exact h.begin hidle hprep env inbox
  | openOnly =>
    simp only [Ledger.step] at hs
    split_ifs at hs with hbusy
    obtain rfl := Option.some.inj hs
    have hidle : l.session = none := by simpa using hbusy
    refine ⟨h.ordered, ?_, fun ses hses => absurd (hidle.symm.trans hses) (by simp)⟩
    intro _ _
    show l.record.completedRanges.covered ⊆ syncedBytes l.opened
    cases hpart : l.part with
    | none =>
      have hempty : l.record.completedRanges.isEmpty = true := by
        simpa [settled, hpart] using hp
      rw [(RangeSet.isEmpty_iff h.ordered).1 hempty]
      exact Set.empty_subset _
    | some file =>
      have := h.synced (by simp [hpart]) (by simp [stale, hidle])
      simpa [opened, hpart] using this
  | call => exact h.call hs
  | publish =>
    simp only [Ledger.step] at hs
    split at hs
    · split_ifs at hs
      obtain rfl := Option.some.inj hs
      exact ⟨h.ordered, fun hpart => absurd rfl hpart, fun _ hses => nomatch hses⟩
    · simp at hs
  | stop =>
    obtain ⟨ses, -, rfl⟩ := Option.map_eq_some_iff.1 hs
    refine ⟨h.ordered, fun hpart _ => h.synced hpart ?_, fun _ hses => nomatch hses⟩
    simpa [settled] using hp
  | markClean clean =>
    simp only [Ledger.step] at hs
    split_ifs at hs
    obtain rfl := Option.some.inj hs
    exact ⟨h.ordered, h.synced, h.running⟩
  | delete =>
    simp only [Ledger.step] at hs
    split_ifs at hs
    obtain rfl := Option.some.inj hs
    exact ⟨h.ordered, fun hpart => absurd rfl hpart, h.running⟩

end Ledger

namespace Ledger

section Steps

variable {l : Ledger} {settings : Settings} {pr : ProbeResult} {available : ℕ} {env : Env}
  {inbox : List Queued} {p : Prepared}

end Steps

end Ledger

end SwiftLoad
