import SwiftLoad.Util.Filename
import SwiftLoad.Util.Intervals

/-!
# The store

`store/mod.rs` and `store/models.rs`.  The store is a table of download records, and every
operation is one statement on one row.  Columns that only the user interface or the URL history
read are left out, and so is the order in which queries list their rows.

An operation on a row is a function on records; `Store.update` is the `UPDATE … WHERE id` around
it.
-/

namespace SwiftLoad

/-- `DownloadStatus`. -/
inductive DownloadStatus
  | queued
  | active
  | paused
  | retrying
  | waitingNetwork
  /-- Blocked on the user: an expired link, or a resource that changed. -/
  | needsAttention
  | completed
  | failed
  | cancelled
deriving DecidableEq, Repr

/-- `DownloadRecord`. -/
structure DownloadRecord where
  id : ℕ
  /-- Filename plus size.  Weak by design. -/
  identityHint : Name := []
  filename : Name
  destDir : Path
  totalSize : Option ℕ := none
  bytesDone : ℕ := 0
  /-- The authoritative resume state. -/
  completedRanges : RangeSet := .new
  status : DownloadStatus := .queued
  maxConnections : Option ℕ := none
  /-- False on load means the last run did not shut down cleanly. -/
  cleanShutdown : Bool := false
deriving DecidableEq

namespace DownloadRecord

/-- The row after `checkpoint`. -/
def checkpoint (ranges : RangeSet) (bytesDone : ℕ) (r : DownloadRecord) : DownloadRecord :=
  { r with completedRanges := ranges, bytesDone := bytesDone }

/-- The row after `set_status`. -/
def setStatus (status : DownloadStatus) (r : DownloadRecord) : DownloadRecord :=
  { r with status := status }

/-- The row after `mark_clean`. -/
def markClean (clean : Bool) (r : DownloadRecord) : DownloadRecord :=
  { r with cleanShutdown := clean }

/-- `resume_state` of the row: the paranoid rewind applies when the last shutdown was unclean. -/
def resumeState (paranoid : Bool) (r : DownloadRecord) : RangeSet × Bool :=
  let unclean := !r.cleanShutdown
  (if unclean && paranoid then r.completedRanges.rewindTails paranoidRewind else r.completedRanges,
    unclean)

variable {r : DownloadRecord}

theorem ordered_resumeState (h : r.completedRanges.Ordered) (paranoid : Bool) :
    (r.resumeState paranoid).1.Ordered := by
  unfold resumeState
  dsimp only
  split_ifs
  · exact RangeSet.ordered_rewindTails h _
  · exact h

/-- Resuming never claims more than the record. -/
theorem resumeState_subset (paranoid : Bool) :
    (r.resumeState paranoid).1.covered ⊆ r.completedRanges.covered := by
  unfold resumeState
  dsimp only
  split_ifs
  · exact RangeSet.rewindTails_subset _ _
  · exact subset_rfl

end DownloadRecord

/-- The table of downloads, in the order of the inserts. -/
structure Store where
  downloads : List DownloadRecord
deriving DecidableEq

namespace Store

/-- An empty table. -/
def empty : Store := ⟨[]⟩

/-- `Store::get`. -/
def get (id : ℕ) (s : Store) : Option DownloadRecord := s.downloads.find? fun r => r.id == id

/-- `Store::insert`.  The id is the primary key, and a row starts without the clean flag. -/
def insert (d : DownloadRecord) (s : Store) : Option Store :=
  if s.downloads.any fun r => r.id == d.id then none
  else some ⟨s.downloads ++ [{ d with cleanShutdown := false }]⟩

/-- An `UPDATE` of the row with this id. -/
def update (id : ℕ) (f : DownloadRecord → DownloadRecord) (s : Store) : Store :=
  ⟨s.downloads.map fun r => if r.id = id then f r else r⟩

/-- `Store::checkpoint`: it fails when there is no such row. -/
def checkpoint (id : ℕ) (ranges : RangeSet) (bytesDone : ℕ) (s : Store) : Option Store :=
  (s.get id).map fun _ => s.update id (DownloadRecord.checkpoint ranges bytesDone)

/-- `Store::clear_clean_flags`, so that a crash from now on is still detected. -/
def clearCleanFlags (s : Store) : Store := ⟨s.downloads.map (DownloadRecord.markClean false)⟩

/-- `Store::find_resumable_by_hint`: candidate duplicates for a newly added URL. -/
def findResumableByHint (hint : Name) (s : Store) : List DownloadRecord :=
  s.downloads.filter fun r => decide (r.identityHint = hint) && decide (r.status ∈
    [.paused, .failed, .needsAttention, .waitingNetwork, .queued])

variable {s : Store} {id : ℕ} {f : DownloadRecord → DownloadRecord} {r : DownloadRecord}

theorem insert_eq_some_iff {s' : Store} {d : DownloadRecord} :
    s.insert d = some s' ↔ (∀ r ∈ s.downloads, r.id ≠ d.id) ∧
      s' = ⟨s.downloads ++ [{ d with cleanShutdown := false }]⟩ := by
  unfold insert
  split_ifs with hany
  · obtain ⟨r, hr, heq⟩ := List.any_eq_true.1 hany
    exact iff_of_false (by simp) fun h => h.1 r hr (beq_iff_eq.1 heq)
  · have hnew : ∀ r ∈ s.downloads, r.id ≠ d.id := fun r hr heq =>
      hany (List.any_eq_true.2 ⟨r, hr, beq_iff_eq.2 heq⟩)
    exact ⟨fun h => ⟨hnew, (Option.some.inj h).symm⟩, fun h => congrArg some h.2.symm⟩

theorem mem_of_get (h : s.get id = some r) : r ∈ s.downloads ∧ r.id = id :=
  ⟨List.mem_of_find?_eq_some h, by simpa using List.find?_some h⟩

theorem mem_update : r ∈ (s.update id f).downloads ↔
    ∃ r₀ ∈ s.downloads, r = if r₀.id = id then f r₀ else r₀ := by
  simp [update, eq_comm]

theorem mem_clearCleanFlags : r ∈ s.clearCleanFlags.downloads ↔
    ∃ r₀ ∈ s.downloads, r = r₀.markClean false := by
  simp [clearCleanFlags, eq_comm]

theorem get_clearCleanFlags : s.clearCleanFlags.get id = (s.get id).map
    (DownloadRecord.markClean false) :=
  List.find?_map ..

end Store

end SwiftLoad
