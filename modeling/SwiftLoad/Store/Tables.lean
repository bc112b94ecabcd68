import SwiftLoad.Store.History
import SwiftLoad.Util.Varint

/-!
# The tables

`store/mod.rs` with all its columns, as the database holds them: texts for the states, blobs for the
range sets, and integers of 64 bits.  `row_to_record` reads a row back, and may fail.

* `Tables.Op.exec` : one call of the store, with its answer.
* `rowToRecord_toRow` : what is written for a record is read as the record.
-/

namespace SwiftLoad

/-- `DownloadRecord` with all its columns. -/
structure StoredRecord extends LinkedRecord where
  partPath : Path
  category : String := "other"
  httpVersion : Option String := none
  retryCount : ℕ := 0
  createdAt : ℤ
  completedAt : Option ℤ := none
deriving DecidableEq

/-- `HostProfile`. -/
structure HostProfile where
  host : String
  bestObservedConns : Option ℕ
  bestObservedBps : Option ℕ
  saturationDetected : Bool
  samples : ℕ
deriving DecidableEq, Repr

/-- A `UrlHistoryEntry` with its time. -/
structure TimedEntry extends UrlHistoryEntry where
  addedAt : ℤ
deriving DecidableEq, Repr

/-- `StoreError`, but for the text of a database error. -/
inductive TableError
  /-- A statement that fails: a constraint, or a value that does not fit its column. -/
  | sql
  | ranges (e : DecodeError)
  | notFound (id : ℕ)
deriving DecidableEq, Repr

/-! ### Values -/

namespace DownloadStatus

/-- `as_str`. -/
def asStr : DownloadStatus → String
  | queued => "queued"
  | active => "active"
  | paused => "paused"
  | retrying => "retrying"
  | waitingNetwork => "waiting_network"
  | needsAttention => "needs_attention"
  | completed => "completed"
  | failed => "failed"
  | cancelled => "cancelled"

/-- `from_db`: unknown values fall back to a safe default. -/
def fromDb (s : String) : DownloadStatus :=
  if s = "active" then active
  else if s = "paused" then paused
  else if s = "retrying" then retrying
  else if s = "waiting_network" then waitingNetwork
  else if s = "needs_attention" then needsAttention
  else if s = "completed" then completed
  else if s = "failed" then failed
  else if s = "cancelled" then cancelled
  else queued

@[simp] theorem fromDb_asStr (s : DownloadStatus) : fromDb s.asStr = s := by
  cases s <;> decide

theorem asStr_inj {s t : DownloadStatus} : s.asStr = t.asStr ↔ s = t :=
  ⟨fun h => by rw [← fromDb_asStr s, h, fromDb_asStr], fun h => h ▸ rfl⟩

end DownloadStatus

namespace ValidationState

/-- `as_str`. -/
def asStr : ValidationState → String
  | notRequired => "not_required"
  | autoVerified => "auto_verified"
  | contentVerified => "content_verified"
  | userConfirmed => "user_confirmed"
  | rejected => "rejected"

/-- `from_db`. -/
def fromDb (s : String) : ValidationState :=
  if s = "auto_verified" then autoVerified
  else if s = "content_verified" then contentVerified
  else if s = "user_confirmed" then userConfirmed
  else if s = "rejected" then rejected
  else notRequired

@[simp] theorem fromDb_asStr (s : ValidationState) : fromDb s.asStr = s := by
  cases s <;> decide

end ValidationState

/-- What stands in an `INTEGER` column that is counted up: nothing, once the sum is no `i64`, for
then it is a real that no getter reads. -/
abbrev SqlCount := Option ℤ

/-- The column `+ 1`. -/
def SqlCount.succ (c : SqlCount) : SqlCount :=
  c.bind fun n => if n + 1 < 2 ^ 63 then some (n + 1) else none

/-- `as i64` of a `u64`. -/
def asI64 (n : ℕ) : ℤ := if n < 2 ^ 63 then n else n - 2 ^ 64

/-- `as u64` of an `i64`, and `as usize`. -/
def asU64 (v : ℤ) : ℕ := (v % 2 ^ 64).toNat

@[simp] theorem asU64_ofNat {n : ℕ} (h : n ≤ u64Max) : asU64 n = n := by
  unfold asU64 u64Max at *
  omega

@[simp] theorem asU64_asI64 {n : ℕ} (h : n ≤ u64Max) : asU64 (asI64 n) = n := by
  unfold asU64 asI64 u64Max at *
  split_ifs <;> omega

theorem asU64_le (v : ℤ) : asU64 v ≤ u64Max := by
  unfold asU64 u64Max
  omega

theorem le_u64Max_of_sqlFits {n : ℕ} (h : sqlFits n = true) : n ≤ u64Max := by
  have := of_decide_eq_true h
  unfold u64Max
  omega

/-! ### Rows -/

/-- A row of `downloads`. -/
structure DownloadRow where
  id : ℕ
  originalUrl : String
  currentUrl : String
  finalUrl : String
  urlRefreshCount : SqlCount
  identityHint : Name
  filename : Name
  destDir : Path
  partPath : Path
  category : String
  totalSize : Option ℤ
  bytesDone : ℤ
  completedRanges : List UInt8
  status : String
  acceptRanges : ℤ
  etag : Option String
  lastModified : Option String
  contentType : Option String
  httpVersion : Option String
  validationState : String
  verifiedWindows : List UInt8
  maxConnections : Option ℤ
  retryCount : ℤ
  createdAt : ℤ
  completedAt : Option ℤ
  errorMessage : Option String
  cleanShutdown : ℤ
deriving DecidableEq

/-- A row of `url_history`. -/
structure HistoryRow where
  downloadId : ℕ
  seq : ℕ
  urlRedacted : String
  host : String
  source : String
  outcome : String
  bytesDoneAtSwap : ℤ
  addedAt : ℤ
deriving DecidableEq

/-- A row of `host_profiles`. -/
structure HostRow where
  host : String
  bestObservedConns : Option ℤ
  bestObservedBps : Option ℤ
  saturationDetected : ℤ
  samples : SqlCount
  updatedAt : ℤ
deriving DecidableEq

/-- The tables. -/
structure Tables where
  downloads : List DownloadRow
  history : List HistoryRow
  hosts : List HostRow
deriving DecidableEq

/-- The record in a row whose blob holds the set and whose count is a number. -/
def DownloadRow.record (r : DownloadRow) (ranges : RangeSet) (count : ℤ) : StoredRecord where
  id := r.id
  originalUrl := r.originalUrl
  currentUrl := r.currentUrl
  finalUrl := r.finalUrl
  urlRefreshCount := count.toNat
  identityHint := r.identityHint
  filename := r.filename
  destDir := r.destDir
  partPath := r.partPath
  category := r.category
  totalSize := r.totalSize.map asU64
  bytesDone := asU64 r.bytesDone
  completedRanges := ranges
  status := .fromDb r.status
  acceptRanges := r.acceptRanges
  etag := r.etag
  lastModified := r.lastModified
  contentType := r.contentType
  httpVersion := r.httpVersion
  validationState := .fromDb r.validationState
  maxConnections := r.maxConnections.map asU64
  retryCount := asU64 r.retryCount
  createdAt := r.createdAt
  completedAt := r.completedAt
  errorMessage := r.errorMessage
  cleanShutdown := decide (r.cleanShutdown ≠ 0)

/-- `row_to_record`.  A row that cannot be read is an error of the query; a blob that cannot be
decoded, which is looked at first, is an answer of the query that is an error of the store. -/
def rowToRecord (r : DownloadRow) : Except TableError (Except TableError StoredRecord) :=
  match RangeSet.decode r.completedRanges with
  | .error e => .ok (.error (.ranges e))
  | .ok ranges =>
    match r.urlRefreshCount with
    | none => .error .sql
    | some count => .ok (.ok (r.record ranges count))

/-- The entry that a row of the history is read as. -/
def HistoryRow.entry (r : HistoryRow) : TimedEntry where
  downloadId := r.downloadId
  seq := r.seq
  urlRedacted := r.urlRedacted
  host := r.host
  source := r.source
  outcome := r.outcome
  bytesDoneAtSwap := asU64 r.bytesDoneAtSwap
  addedAt := r.addedAt

/-- The profile that a row is read as. -/
def HostRow.profile (r : HostRow) : Except TableError HostProfile :=
  match r.samples with
  | none => .error .sql
  | some n => .ok {
      host := r.host
      bestObservedConns := r.bestObservedConns.map asU64
      bestObservedBps := r.bestObservedBps.map asU64
      saturationDetected := decide (r.saturationDetected ≠ 0)
      samples := asU64 n }

/-- The blob for a set.  The sets of the program are in order, and then it can be written. -/
def blob (ranges : RangeSet) : List UInt8 := ranges.encode.getD []

/-- The numbers of a record fit their columns. -/
def StoredRecord.Fits (d : StoredRecord) : Prop :=
  d.totalSize.all sqlFits ∧ sqlFits d.bytesDone ∧ d.maxConnections.all sqlFits ∧
    sqlFits d.retryCount

instance : DecidablePred StoredRecord.Fits := fun _ => inferInstanceAs (Decidable (_ ∧ _))

/-- The row that `insert` writes: the clean flag, the error message and the time of completion are
not taken from the record. -/
def StoredRecord.toRow (d : StoredRecord) : DownloadRow where
  id := d.id
  originalUrl := d.originalUrl
  currentUrl := d.currentUrl
  finalUrl := d.finalUrl
  urlRefreshCount := some d.urlRefreshCount
  identityHint := d.identityHint
  filename := d.filename
  destDir := d.destDir
  partPath := d.partPath
  category := d.category
  totalSize := d.totalSize.map (↑)
  bytesDone := d.bytesDone
  completedRanges := blob d.completedRanges
  status := d.status.asStr
  acceptRanges := d.acceptRanges
  etag := d.etag
  lastModified := d.lastModified
  contentType := d.contentType
  httpVersion := d.httpVersion
  validationState := d.validationState.asStr
  verifiedWindows := []
  maxConnections := d.maxConnections.map (↑)
  retryCount := d.retryCount
  createdAt := d.createdAt
  completedAt := none
  errorMessage := none
  cleanShutdown := 0

/-- A set that can be written: in order, not empty anywhere, and within the 64 bits. -/
def RangeSet.Storable (r : RangeSet) : Prop := r.Ordered ∧ ∀ p ∈ r.spans, p.1 + p.2 ≤ u64Max

instance : DecidablePred RangeSet.Storable := fun _ => inferInstanceAs (Decidable (_ ∧ _))

/-- What is written for a set is read as the set. -/
theorem decode_blob {ranges : RangeSet} (h : ranges.Storable) :
    RangeSet.decode (blob ranges) = .ok ranges := by
  obtain ⟨out, henc, hdec⟩ : ∃ out, RangeSet.encodeFrom 0 ranges.spans = some out ∧
      RangeSet.decodeFrom 0 out = .ok ranges.spans :=
    RangeSet.decodeFrom_encodeFrom h.1.1 h.1.2 h.2 fun p _ => Nat.zero_le p.1
  unfold blob RangeSet.encode RangeSet.decode
  rw [henc, Option.getD_some, hdec]
  rfl

theorem map_asU64_map {o : Option ℕ} (h : o.all sqlFits = true) :
    (o.map ((↑) : ℕ → ℤ)).map asU64 = o := by
  cases o with
  | none => rfl
  | some n => exact congrArg some (asU64_ofNat (le_u64Max_of_sqlFits h))

/-- The record that is read back: without the completion, the error and the clean flag. -/
def StoredRecord.fresh (d : StoredRecord) : StoredRecord :=
  { d with completedAt := none, errorMessage := none, cleanShutdown := false }

theorem rowToRecord_eq_ok {r : DownloadRow} {d : StoredRecord} :
    rowToRecord r = .ok (.ok d) ↔ ∃ ranges count, RangeSet.decode r.completedRanges = .ok ranges ∧
      r.urlRefreshCount = some count ∧ r.record ranges count = d := by
  unfold rowToRecord
  cases RangeSet.decode r.completedRanges with
  | error e => simp
  | ok ranges => cases r.urlRefreshCount <;> simp

/-- A row that was just written is read as the record it was written for. -/
theorem rowToRecord_toRow {d : StoredRecord} (hr : d.completedRanges.Storable) (hfit : d.Fits) :
    rowToRecord d.toRow = .ok (.ok d.fresh) := by
  obtain ⟨hsize, hbytes, hconns, hretry⟩ := hfit
  refine rowToRecord_eq_ok.2 ⟨_, _, decode_blob hr, rfl, ?_⟩
  unfold DownloadRow.record StoredRecord.toRow
  simp only [map_asU64_map hsize, map_asU64_map hconns,
    asU64_ofNat (le_u64Max_of_sqlFits hbytes), asU64_ofNat (le_u64Max_of_sqlFits hretry),
    DownloadStatus.fromDb_asStr, ValidationState.fromDb_asStr, Int.toNat_natCast]
  rfl

namespace DownloadRow

/-- What `checkpoint` sets. -/
def checkpointed (ranges : RangeSet) (bytesDone : ℕ) (r : DownloadRow) : DownloadRow :=
  { r with completedRanges := blob ranges, bytesDone := bytesDone }

/-- What `set_status` sets. -/
def withStatus (status : DownloadStatus) (error : Option String) (now : ℤ) (r : DownloadRow) :
    DownloadRow :=
  { r with
    status := status.asStr
    errorMessage := error
    completedAt := if status.asStr = "completed" then some now else r.completedAt }

/-- What `mark_clean` sets. -/
def cleaned (clean : Bool) (r : DownloadRow) : DownloadRow :=
  { r with cleanShutdown := if clean then 1 else 0 }

/-- What `swap_url` sets. -/
def swapped (newUrl resolved : String) (etag lastModified : Option String) (totalSize : Option ℕ)
    (acceptRanges : ℤ) (validation : ValidationState) (r : DownloadRow) : DownloadRow :=
  { r with
    currentUrl := newUrl
    finalUrl := resolved
    urlRefreshCount := r.urlRefreshCount.succ
    etag := etag
    lastModified := lastModified
    totalSize := totalSize.map (↑) <|> r.totalSize
    acceptRanges := acceptRanges
    validationState := validation.asStr
    status := "queued"
    errorMessage := none }

end DownloadRow

/-! ### Statements -/

namespace Tables

/-- Empty tables. -/
def empty : Tables := ⟨[], [], []⟩

/-- The row with this id. -/
def row? (id : ℕ) (db : Tables) : Option DownloadRow := db.downloads.find? fun r => r.id == id

/-- An `UPDATE` of the row with this id. -/
def update (id : ℕ) (f : DownloadRow → DownloadRow) (db : Tables) : Tables :=
  { db with downloads := db.downloads.map fun r => if r.id = id then f r else r }

/-- The chain of a download, in the order of the inserts. -/
def chain (id : ℕ) (db : Tables) : List HistoryRow :=
  db.history.filter fun e => e.downloadId == id

/-- `COALESCE(MAX(seq) + 1, 0)`. -/
def nextSeq (id : ℕ) (db : Tables) : ℕ := (((db.chain id).map HistoryRow.seq).max?).elim 0 (· + 1)

/-- The row of a host. -/
def host? (host : String) (db : Tables) : Option HostRow := db.hosts.find? fun r => r.host == host

/-- `ORDER BY created_at DESC`.  SQLite leaves open how rows of one time are ordered; here they keep
the order of the inserts. -/
def newestFirst (rows : List DownloadRow) : List DownloadRow :=
  rows.mergeSort fun a b => decide (b.createdAt ≤ a.createdAt)

/-- The rows of a query: a row that cannot be read comes before a set that cannot be decoded. -/
def collect (rows : List DownloadRow) : Except TableError (List StoredRecord) := do
  let answers ← rows.mapM rowToRecord
  answers.mapM id

/-- What a statement answers. -/
def answer {α : Type} (r : Except TableError α) : Program Tables TableError α :=
  match r with
  | .ok a => pure a
  | .error e => throw e

variable (lib : UrlLib)

/-- `push_url_history`.  The row refers to its download. -/
def pushUrlHistory (id : ℕ) (url : String) (source : UrlSource) (outcome : String)
    (bytesAtSwap : ℕ) (now : ℤ) : Program Tables TableError Unit := do
  let db ← MonadState.get
  if db.row? id = none then throw .sql
  else
    modify fun db => { db with history := db.history ++ [{
      downloadId := id
      seq := db.nextSeq id
      urlRedacted := Redact.redact lib url
      host := Redact.hostOf lib url
      source := source.asStr
      outcome := outcome
      bytesDoneAtSwap := asI64 bytesAtSwap
      addedAt := now }] }

/-- `Store::insert`. -/
def insert (d : StoredRecord) (now : ℤ) : Program Tables TableError Unit := do
  let db ← MonadState.get
  if (db.row? d.id).isSome ∨ ¬d.Fits then throw .sql
  else
    modify fun db => { db with downloads := db.downloads ++ [d.toRow] }
    pushUrlHistory lib d.id d.originalUrl .user "initial" 0 now

/-- `Store::checkpoint`. -/
def checkpoint (id : ℕ) (ranges : RangeSet) (bytesDone : ℕ) : Program Tables TableError Unit := do
  let db ← MonadState.get
  if ¬sqlFits bytesDone then throw .sql
  else if db.row? id = none then throw (.notFound id)
  else
    modify (update id (DownloadRow.checkpointed ranges bytesDone))

/-- `Store::get`. -/
def getRecord (id : ℕ) : Program Tables TableError (Option StoredRecord) := do
  let db ← MonadState.get
  match db.row? id with
  | none => pure none
  | some r =>
    let read ← answer (rowToRecord r)
    let d ← answer read
    pure (some d)

/-- `Store::list`. -/
def list (filter : Option DownloadStatus) : Program Tables TableError (List StoredRecord) := do
  let db ← MonadState.get
  answer (collect (newestFirst
    (db.downloads.filter fun r => filter.all fun s => r.status == s.asStr)))

/-- `Store::set_status`. -/
def setStatus (id : ℕ) (status : DownloadStatus) (error : Option String) (now : ℤ) :
    Program Tables TableError Unit :=
  modify (update id (DownloadRow.withStatus status error now))

/-- `Store::mark_clean`. -/
def markClean (id : ℕ) (clean : Bool) : Program Tables TableError Unit :=
  modify (update id (DownloadRow.cleaned clean))

/-- `Store::clear_clean_flags`. -/
def clearCleanFlags : Program Tables TableError Unit :=
  modify fun db => { db with downloads := db.downloads.map (DownloadRow.cleaned false) }

/-- `Store::swap_url`: replace the URL a download fetches from, keeping every byte of its state. -/
def swapUrl (id : ℕ) (newUrl resolved : String) (etag lastModified : Option String)
    (totalSize : Option ℕ) (acceptRanges : ℤ) (validation : ValidationState) (outcome : String)
    (now : ℤ) : Program Tables TableError Unit := do
  let db ← MonadState.get
  match db.row? id with
  | none => throw .sql
  | some r =>
    if ¬totalSize.all sqlFits then throw .sql
    else
      modify (update id (DownloadRow.swapped newUrl resolved etag lastModified totalSize
        acceptRanges validation))
      pushUrlHistory lib id newUrl .user outcome (asU64 r.bytesDone) now

/-- `Store::url_history`. -/
def urlHistory (id : ℕ) : Program Tables TableError (List TimedEntry) := do
  let db ← MonadState.get
  pure (((db.chain id).mergeSort fun a b => decide (a.seq ≤ b.seq)).map HistoryRow.entry)

/-- `Store::find_resumable_by_hint`. -/
def findResumableByHint (hint : Name) : Program Tables TableError (List StoredRecord) := do
  let db ← MonadState.get
  answer (collect (newestFirst (db.downloads.filter fun r => decide (r.identityHint = hint) &&
    ["paused", "failed", "needs_attention", "waiting_network", "queued"].contains r.status)))

/-- `Store::resume_state`. -/
def resumeState (id : ℕ) (paranoid : Bool) : Program Tables TableError (RangeSet × Bool) := do
  match ← getRecord id with
  | none => throw (.notFound id)
  | some d => pure (d.resumeState paranoid)

/-- `Store::record_host_profile`. -/
def recordHostProfile (host : String) (bestConns bestBps : ℕ) (saturated : Bool) (now : ℤ) :
    Program Tables TableError Unit :=
  modify fun db =>
    if (db.host? host).isSome then
      { db with hosts := db.hosts.map fun r => if r.host = host then { r with
          bestObservedConns := some (asI64 bestConns)
          bestObservedBps := some (asI64 bestBps)
          saturationDetected := if saturated then 1 else 0
          samples := r.samples.succ
          updatedAt := now } else r }
    else
      { db with hosts := db.hosts ++ [{
          host := host
          bestObservedConns := some (asI64 bestConns)
          bestObservedBps := some (asI64 bestBps)
          saturationDetected := if saturated then 1 else 0
          samples := some 1
          updatedAt := now }] }

/-- `Store::host_profile`. -/
def hostProfile (host : String) : Program Tables TableError (Option HostProfile) := do
  let db ← MonadState.get
  match db.host? host with
  | none => pure none
  | some r =>
    let p ← answer r.profile
    pure (some p)

/-- `Store::delete`.  The history of the download goes with it. -/
def delete (id : ℕ) : Program Tables TableError Unit :=
  modify fun db => { db with
    downloads := db.downloads.filter fun r => !(r.id == id)
    history := db.history.filter fun e => !(e.downloadId == id) }

/-! ### Calls -/

/-- A call of the store, with the time it is made. -/
inductive Op where
  | insert (d : StoredRecord) (now : ℤ)
  | checkpoint (id : ℕ) (ranges : RangeSet) (bytesDone : ℕ)
  | get (id : ℕ)
  | list (filter : Option DownloadStatus)
  | setStatus (id : ℕ) (status : DownloadStatus) (error : Option String) (now : ℤ)
  | markClean (id : ℕ) (clean : Bool)
  | clearCleanFlags
  | swapUrl (id : ℕ) (newUrl resolved : String) (etag lastModified : Option String)
      (totalSize : Option ℕ) (acceptRanges : ℤ) (validation : ValidationState) (outcome : String)
      (now : ℤ)
  | pushUrlHistory (id : ℕ) (url : String) (source : UrlSource) (outcome : String)
      (bytesAtSwap : ℕ) (now : ℤ)
  | urlHistory (id : ℕ)
  | findResumableByHint (hint : Name)
  | resumeState (id : ℕ) (paranoid : Bool)
  | recordHostProfile (host : String) (bestConns bestBps : ℕ) (saturated : Bool) (now : ℤ)
  | hostProfile (host : String)
  | delete (id : ℕ)

/-- What a call returns. -/
inductive Returns where
  | done
  | record (d : Option StoredRecord)
  | records (ds : List StoredRecord)
  | history (es : List TimedEntry)
  | resume (ranges : RangeSet) (unclean : Bool)
  | profile (p : Option HostProfile)

/-- The call as a program. -/
def Op.exec : Op → Program Tables TableError Returns
  | insert d now => (fun _ => .done) <$> Tables.insert lib d now
  | checkpoint id ranges bytesDone => (fun _ => .done) <$> Tables.checkpoint id ranges bytesDone
  | get id => .record <$> Tables.getRecord id
  | list filter => .records <$> Tables.list filter
  | setStatus id status error now => (fun _ => .done) <$> Tables.setStatus id status error now
  | markClean id clean => (fun _ => .done) <$> Tables.markClean id clean
  | clearCleanFlags => (fun _ => .done) <$> Tables.clearCleanFlags
  | swapUrl id newUrl resolved etag lastModified totalSize acceptRanges validation outcome now =>
    (fun _ => .done) <$> Tables.swapUrl lib id newUrl resolved etag lastModified totalSize
      acceptRanges validation outcome now
  | pushUrlHistory id url source outcome bytesAtSwap now =>
    (fun _ => .done) <$> Tables.pushUrlHistory lib id url source outcome bytesAtSwap now
  | urlHistory id => .history <$> Tables.urlHistory id
  | findResumableByHint hint => .records <$> Tables.findResumableByHint hint
  | resumeState id paranoid => (fun p => .resume p.1 p.2) <$> Tables.resumeState id paranoid
  | recordHostProfile host bestConns bestBps saturated now =>
    (fun _ => .done) <$> Tables.recordHostProfile host bestConns bestBps saturated now
  | hostProfile host => .profile <$> Tables.hostProfile host
  | delete id => (fun _ => .done) <$> Tables.delete id

/-- The answers of a sequence of calls, and the tables after it. -/
def run (db : Tables) : List Op → List (Except TableError Returns) × Tables
  | [] => ([], db)
  | op :: ops =>
    let (reply, db) := (op.exec lib).runFrom db
    let (replies, db) := run db ops
    (reply :: replies, db)

end Tables

end SwiftLoad
