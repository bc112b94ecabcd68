import SwiftLoad.Store.Sound

/-!
# The store refines the catalog

Every call on the tables answers what the catalog says, and leaves tables that hold the catalog
after it.

* `Tables.refines` : one call.
* `run_refines` : **every sequence of calls answers what the catalog says.**
* `download_kept` : **a download keeps its identity, its progress and its URLs until it is
  deleted.**
* `host_learned` : **a host is known by the last of its downloads, and their number.**
-/

namespace SwiftLoad

namespace Tables

variable {db : Tables} {n id : ℕ}

/-! ### One call -/

/-- What the callers keep to: sets that can be written, sizes of 64 bits, and a count that leaves
room for `n` more calls. -/
def Op.Valid (n : ℕ) : Op → Prop
  | insert d _ => d.completedRanges.Storable ∧ d.urlRefreshCount + n < 2 ^ 63
  | checkpoint _ ranges _ => ranges.Storable
  | pushUrlHistory _ _ _ _ bytesAtSwap _ => bytesAtSwap ≤ u64Max
  | recordHostProfile _ bestConns bestBps _ _ => bestConns ≤ u64Max ∧ bestBps ≤ u64Max
  | _ => True

section Call

variable {lib : UrlLib} {reply : Except TableError Returns} {db' : Tables}

/-- The call does on the tables what it does on the catalog, and `n` more calls may follow. -/
def Refines (lib : UrlLib) (n : ℕ) (db : Tables) (op : Op) : Prop :=
  Sound n ((op.exec lib).runFrom db).2 ∧
    db.catalog.Does lib op ((op.exec lib).runFrom db).1 ((op.exec lib).runFrom db).2.catalog

theorem Refines.of_eq {op : Op} (hrun : (op.exec lib).runFrom db = (reply, db'))
    (hs : Sound n db') (hd : db.catalog.Does lib op reply db'.catalog) : Refines lib n db op := by
  unfold Refines
  rw [hrun]
  exact ⟨hs, hd⟩

theorem Refines.of_same {op : Op} (h : Sound (n + 1) db)
    (hrun : (op.exec lib).runFrom db = (reply, db))
    (hd : db.catalog.Does lib op reply db.catalog) : Refines lib n db op :=
  .of_eq hrun h.mono hd

theorem runFrom_pushUrlHistory (hrow : (db.row? id).isSome) (url : String) (source : UrlSource)
    (outcome : String) (bytesAtSwap : ℕ) (now : ℤ) :
    (pushUrlHistory lib id url source outcome bytesAtSwap now).runFrom db =
      (.ok (), { db with history := db.history ++ [⟨id, db.nextSeq id, Redact.redact lib url,
        Redact.hostOf lib url, source.asStr, outcome, asI64 bytesAtSwap, now⟩] }) := by
  unfold pushUrlHistory
  rw [Program.runFrom_bind, Program.runFrom_get]
  dsimp only
  rw [if_neg (Option.ne_none_iff_isSome.2 hrow), Program.runFrom_modify]

theorem map_ok {α : Type} {m : Program Tables TableError α} {f : α → Returns} {a : α}
    (h : m.runFrom db = (.ok a, db')) : (f <$> m).runFrom db = (.ok (f a), db') := by
  rw [Program.runFrom_map, h]

theorem map_error {α : Type} {m : Program Tables TableError α} {f : α → Returns} {e : TableError}
    (h : m.runFrom db = (.error e, db')) : (f <$> m).runFrom db = (.error e, db') := by
  rw [Program.runFrom_map, h]

theorem refines_insert (h : Sound (n + 1) db) {d : StoredRecord} {now : ℤ}
    (hv : (Op.insert d now).Valid n) : Refines lib n db (.insert d now) := by
  obtain ⟨hr, hcount⟩ := hv
  have hsome : (db.row? d.id).isSome = (db.catalog.record d.id).isSome := by
    rw [Bool.eq_iff_iff, ← Option.ne_none_iff_isSome, ← Option.ne_none_iff_isSome,
      ne_eq, ne_eq, h.row?_eq_none_iff]
  by_cases hbad : (db.row? d.id).isSome ∨ ¬d.Fits
  · have hrun : (insert lib d now).runFrom db = (.error .sql, db) := by
      unfold insert
      rw [Program.runFrom_bind, Program.runFrom_get]
      dsimp only
      rw [if_pos hbad, Program.runFrom_throw]
    refine .of_same h (map_error hrun) ?_
    rw [hsome] at hbad
    rw [Catalog.Does, if_pos hbad]
    exact ⟨rfl, rfl⟩
  · obtain ⟨hnone, hfit⟩ := not_or.1 hbad
    rw [Option.not_isSome_iff_eq_none] at hnone
    obtain ⟨hadd, hrow, hcat⟩ := h.add hnone hr (not_not.1 hfit) hcount
    obtain ⟨hpush, hcat'⟩ := hadd.append lib hrow d.originalUrl .user "initial" (Nat.zero_le _) now
    have hrun : (insert lib d now).runFrom db =
        (pushUrlHistory lib d.id d.originalUrl .user "initial" 0 now).runFrom
          { db with downloads := db.downloads ++ [d.toRow] } := by
      unfold insert
      rw [Program.runFrom_bind, Program.runFrom_get]
      dsimp only
      rw [if_neg hbad, Program.runFrom_bind, Program.runFrom_modify]
    rw [runFrom_pushUrlHistory hrow] at hrun
    refine .of_eq (map_ok hrun) hpush ?_
    rw [hsome] at hbad
    rw [Catalog.Does, if_neg hbad, hcat', hcat]
    exact ⟨rfl, rfl⟩

theorem refines_checkpoint (h : Sound (n + 1) db) {ranges : RangeSet} {bytesDone : ℕ}
    (hv : (Op.checkpoint id ranges bytesDone).Valid n) :
    Refines lib n db (.checkpoint id ranges bytesDone) := by
  have hrun : (checkpoint id ranges bytesDone).runFrom db =
      if ¬sqlFits bytesDone then (.error .sql, db)
      else if db.row? id = none then (.error (.notFound id), db)
      else (.ok (), db.update id (DownloadRow.checkpointed ranges bytesDone)) := by
    unfold checkpoint
    rw [Program.runFrom_bind, Program.runFrom_get]
    dsimp only
    split_ifs <;> rfl
  by_cases hfit : sqlFits bytesDone
  · rw [if_neg (not_not.2 hfit)] at hrun
    by_cases hrow : db.row? id = none
    · rw [if_pos hrow] at hrun
      refine .of_same h (map_error hrun) ?_
      rw [Catalog.Does, if_neg (not_not.2 hfit), if_pos ((h.row?_eq_none_iff id).1 hrow)]
      exact ⟨rfl, rfl⟩
    · rw [if_neg hrow] at hrun
      obtain ⟨hs, hcat⟩ := h.update (f := DownloadRow.checkpointed ranges bytesDone)
        (g := StoredRecord.checkpointed ranges bytesDone) id (fun _ => rfl)
        (fun _ _ hd _ => hd.checkpointed hv hfit) fun _ => Nat.le_succ _
      refine .of_eq (map_ok hrun) hs ?_
      rw [Catalog.Does, if_neg (not_not.2 hfit), if_neg (mt (h.row?_eq_none_iff id).2 hrow)]
      exact ⟨rfl, hcat⟩
  · rw [if_pos hfit] at hrun
    refine .of_same h (map_error hrun) ?_
    rw [Catalog.Does, if_pos hfit]
    exact ⟨rfl, rfl⟩

theorem refines_setStatus (h : Sound (n + 1) db) (status : DownloadStatus) (error : Option String)
    (now : ℤ) : Refines lib n db (.setStatus id status error now) := by
  obtain ⟨hs, hcat⟩ := h.update (f := DownloadRow.withStatus status error now)
    (g := StoredRecord.withStatus status error now) id (fun _ => rfl)
    (fun _ _ hd _ => hd.withStatus status error now) fun _ => Nat.le_succ _
  exact .of_eq (map_ok (a := ()) rfl) hs ⟨rfl, hcat⟩

theorem refines_markClean (h : Sound (n + 1) db) (clean : Bool) :
    Refines lib n db (.markClean id clean) := by
  obtain ⟨hs, hcat⟩ := h.update (f := DownloadRow.cleaned clean)
    (g := StoredRecord.cleaned clean) id (fun _ => rfl)
    (fun _ _ hd _ => hd.cleaned clean) fun _ => Nat.le_succ _
  exact .of_eq (map_ok (a := ()) rfl) hs ⟨rfl, hcat⟩

theorem refines_clearCleanFlags (h : Sound (n + 1) db) : Refines lib n db .clearCleanFlags := by
  obtain ⟨hs, hcat⟩ := h.mapRows (F := DownloadRow.cleaned false)
    (G := fun _ => StoredRecord.cleaned false) (fun _ => rfl)
    (fun _ _ hd _ => hd.cleaned false) fun _ _ => Nat.le_succ _
  exact .of_eq (map_ok (a := ()) rfl) hs ⟨rfl, hcat⟩

theorem runFrom_answer {α : Type} {r : Except TableError α} {a : α} (h : r = .ok a) :
    (answer r).runFrom db = (.ok a, db) := by
  rw [h]
  rfl

theorem runFrom_getRecord (h : Sound n db) (id : ℕ) :
    (getRecord id).runFrom db = (.ok (db.catalog.record id), db) := by
  unfold getRecord
  rw [Program.runFrom_bind, Program.runFrom_get]
  dsimp only
  obtain ⟨hr, hc⟩ | ⟨r, d, hr, hc, hd, -⟩ := h.row id
  · rw [hr, hc]
    rfl
  · rw [hr, hc]
    dsimp only
    rw [Program.runFrom_bind, runFrom_answer hd.read]
    rfl

theorem refines_list (h : Sound (n + 1) db) (filter : Option DownloadStatus) :
    Refines lib n db (.list filter) := by
  obtain ⟨ds, hds, hlists⟩ := h.lists (p := fun r => filter.all fun s => r.status == s.asStr)
    (P := fun d => ∀ s ∈ filter, d.status = s) fun r d hd => by
      cases filter with
      | none => simp
      | some s => simp [hd.status, DownloadStatus.asStr_inj]
  have hrun : (list filter).runFrom db = (.ok ds, db) := by
    unfold list
    rw [Program.runFrom_bind, Program.runFrom_get]
    exact runFrom_answer hds
  exact .of_same h (map_ok hrun) ⟨⟨ds, rfl, hlists⟩, rfl⟩

theorem refines_findResumableByHint (h : Sound (n + 1) db) (hint : Name) :
    Refines lib n db (.findResumableByHint hint) := by
  obtain ⟨ds, hds, hlists⟩ := h.lists (p := fun r => decide (r.identityHint = hint) &&
      ["paused", "failed", "needs_attention", "waiting_network", "queued"].contains r.status)
    (P := fun d => d.identityHint = hint ∧ d.status ∈
      [.paused, .failed, .needsAttention, .waitingNetwork, .queued]) fun r d hd => by
      obtain ⟨_, -, heq⟩ := hd.eq_record
      have hhint : d.identityHint = r.identityHint := by
        rw [heq]
        rfl
      have hstatus : ["paused", "failed", "needs_attention", "waiting_network",
          "queued"].contains r.status = true ↔
          d.status ∈ [.paused, .failed, .needsAttention, .waitingNetwork, .queued] := by
        rw [hd.status]
        cases d.status <;> decide
      rw [Bool.and_eq_true, decide_eq_true_eq, hstatus, hhint]
  have hrun : (findResumableByHint hint).runFrom db = (.ok ds, db) := by
    unfold findResumableByHint
    rw [Program.runFrom_bind, Program.runFrom_get]
    exact runFrom_answer hds
  exact .of_same h (map_ok hrun) ⟨⟨ds, rfl, hlists⟩, rfl⟩

theorem refines_resumeState (h : Sound (n + 1) db) (paranoid : Bool) :
    Refines lib n db (.resumeState id paranoid) := by
  cases hrow : db.catalog.record id with
  | none =>
    have hrun : (resumeState id paranoid).runFrom db = (.error (.notFound id), db) := by
      unfold resumeState
      rw [Program.runFrom_bind, runFrom_getRecord h, hrow]
      rfl
    refine .of_same h (map_error hrun) ?_
    rw [Catalog.Does, hrow]
    exact ⟨rfl, rfl⟩
  | some d =>
    have hrun : (resumeState id paranoid).runFrom db = (.ok (d.resumeState paranoid), db) := by
      unfold resumeState
      rw [Program.runFrom_bind, runFrom_getRecord h, hrow]
      rfl
    refine .of_same h (map_ok hrun) ?_
    rw [Catalog.Does, hrow]
    exact ⟨rfl, rfl⟩

variable (db id lib) in
theorem runFrom_swapUrl (newUrl resolved : String) (etag lastModified : Option String)
    (totalSize : Option ℕ) (acceptRanges : ℤ) (validation : ValidationState) (outcome : String)
    (now : ℤ) :
    (swapUrl lib id newUrl resolved etag lastModified totalSize acceptRanges validation outcome
      now).runFrom db =
      match db.row? id with
      | none => (.error .sql, db)
      | some r =>
        if ¬totalSize.all sqlFits then (.error .sql, db)
        else (pushUrlHistory lib id newUrl .user outcome (asU64 r.bytesDone) now).runFrom
          (db.update id (DownloadRow.swapped newUrl resolved etag lastModified totalSize
            acceptRanges validation)) := by
  unfold swapUrl
  rw [Program.runFrom_bind, Program.runFrom_get]
  dsimp only
  cases db.row? id with
  | none => rfl
  | some r =>
    dsimp only
    split_ifs
    · rw [Program.runFrom_bind, Program.runFrom_modify]
    · rfl

theorem refines_swapUrl (h : Sound (n + 1) db) (newUrl resolved : String)
    (etag lastModified : Option String) (totalSize : Option ℕ) (acceptRanges : ℤ)
    (validation : ValidationState) (outcome : String) (now : ℤ) :
    Refines lib n db (.swapUrl id newUrl resolved etag lastModified totalSize acceptRanges
      validation outcome now) := by
  have hrun := runFrom_swapUrl db id lib newUrl resolved etag lastModified totalSize acceptRanges
    validation outcome now
  obtain ⟨hr, hc⟩ | ⟨r, d, hr, hc, hd, hlt⟩ := h.row id
  · rw [hr] at hrun
    refine .of_same h (map_error hrun) ?_
    rw [Catalog.Does, hc]
    exact ⟨rfl, rfl⟩
  · rw [hr] at hrun
    dsimp only at hrun
    by_cases hfit : totalSize.all sqlFits
    · obtain ⟨hs, hcat⟩ := h.update (f := DownloadRow.swapped newUrl resolved etag lastModified
          totalSize acceptRanges validation) (g := StoredRecord.swapped newUrl resolved etag
          lastModified totalSize acceptRanges validation) id (fun _ => rfl)
        (fun _ _ hd hlt => hd.swapped newUrl resolved etag lastModified hfit acceptRanges validation
          (by omega)) fun _ => le_rfl
      have hrow : ((db.update id (DownloadRow.swapped newUrl resolved etag lastModified totalSize
          acceptRanges validation)).row? id).isSome := by
        rw [← Option.ne_none_iff_isSome, ne_eq, hs.row?_eq_none_iff, hcat]
        simp [Catalog.modify, hc]
      obtain ⟨hpush, hcat'⟩ := hs.append lib hrow newUrl .user outcome (asU64_le r.bytesDone) now
      rw [if_neg (not_not.2 hfit), runFrom_pushUrlHistory hrow] at hrun
      refine .of_eq (map_ok hrun) hpush ?_
      have hbytes : d.bytesDone = asU64 r.bytesDone := by
        obtain ⟨_, -, heq⟩ := hd.eq_record
        rw [heq]
        rfl
      rw [Catalog.Does, hc]
      dsimp only
      rw [if_neg (not_not.2 hfit), hcat', hcat, hbytes]
      exact ⟨rfl, rfl⟩
    · rw [if_pos hfit] at hrun
      refine .of_same h (map_error hrun) ?_
      rw [Catalog.Does, hc]
      dsimp only
      rw [if_pos hfit]
      exact ⟨rfl, rfl⟩

theorem refines_pushUrlHistory (h : Sound (n + 1) db) {url : String} {source : UrlSource}
    {outcome : String} {bytesAtSwap : ℕ} {now : ℤ}
    (hv : (Op.pushUrlHistory id url source outcome bytesAtSwap now).Valid n) :
    Refines lib n db (.pushUrlHistory id url source outcome bytesAtSwap now) := by
  by_cases hrow : db.row? id = none
  · have hrun : (pushUrlHistory lib id url source outcome bytesAtSwap now).runFrom db =
        (.error .sql, db) := by
      unfold pushUrlHistory
      rw [Program.runFrom_bind, Program.runFrom_get]
      dsimp only
      rw [if_pos hrow, Program.runFrom_throw]
    refine .of_same h (map_error hrun) ?_
    rw [Catalog.Does, if_pos ((h.row?_eq_none_iff id).1 hrow)]
    exact ⟨rfl, rfl⟩
  · have hsome : (db.row? id).isSome := Option.ne_none_iff_isSome.1 hrow
    obtain ⟨hpush, hcat⟩ := h.mono.append lib hsome url source outcome hv now
    refine .of_eq (map_ok (runFrom_pushUrlHistory hsome url source outcome bytesAtSwap now))
      hpush ?_
    rw [Catalog.Does, if_neg (mt (h.row?_eq_none_iff id).2 hrow)]
    exact ⟨rfl, hcat⟩

theorem runFrom_urlHistory (h : Sound n db) (id : ℕ) :
    (urlHistory id).runFrom db = (.ok (db.catalog.chain id), db) := by
  have hsorted : ((db.chain id).mergeSort fun a b => decide (a.seq ≤ b.seq)) = db.chain id := by
    refine List.mergeSort_of_pairwise ?_
    have hrange : ((db.chain id).map HistoryRow.seq).Pairwise (· < ·) :=
      h.numbered id ▸ List.pairwise_lt_range
    exact (List.pairwise_map.1 hrange).imp fun hlt => decide_eq_true hlt.le
  unfold urlHistory
  rw [Program.runFrom_bind, Program.runFrom_get]
  dsimp only
  rw [hsorted]
  rfl

theorem refines_recordHostProfile (h : Sound (n + 1) db) (hn : n + 1 < 2 ^ 63) {host : String}
    {bestConns bestBps : ℕ} {saturated : Bool} {now : ℤ}
    (hv : (Op.recordHostProfile host bestConns bestBps saturated now).Valid n) :
    Refines lib n db (.recordHostProfile host bestConns bestBps saturated now) := by
  obtain ⟨hs, hcat⟩ := h.recordHostProfile host hv.1 hv.2 saturated now hn
  exact .of_eq (map_ok (a := ()) rfl) hs ⟨rfl, hcat⟩

theorem runFrom_hostProfile (h : Sound n db) (host : String) :
    (hostProfile host).runFrom db = (.ok (db.catalog.host host), db) := by
  unfold hostProfile
  rw [Program.runFrom_bind, Program.runFrom_get]
  dsimp only
  show _ = (Except.ok ((db.host? host).bind fun r => r.profile.toOption), db)
  cases hrow : db.host? host with
  | none => rfl
  | some r =>
    obtain ⟨k, hk, hlt⟩ := h.samples r (mem_of_host? hrow).1
    have hread := profile_eq hk (by omega)
    dsimp only
    rw [Program.runFrom_bind, runFrom_answer hread, Option.bind_some, hread]
    rfl

/-- Every call does on the tables what it does on the catalog. -/
theorem refines (h : Sound (n + 1) db) (hn : n + 1 < 2 ^ 63) {op : Op} (hv : op.Valid n) :
    Refines lib n db op := by
  cases op with
  | insert d now => exact refines_insert h hv
  | checkpoint id ranges bytesDone => exact refines_checkpoint h hv
  | get id => exact .of_same h (map_ok (runFrom_getRecord h id)) ⟨rfl, rfl⟩
  | list filter => exact refines_list h filter
  | setStatus id status error now => exact refines_setStatus h status error now
  | markClean id clean => exact refines_markClean h clean
  | clearCleanFlags => exact refines_clearCleanFlags h
  | swapUrl id newUrl resolved etag lastModified totalSize acceptRanges validation outcome now =>
    exact refines_swapUrl h newUrl resolved etag lastModified totalSize acceptRanges validation
      outcome now
  | pushUrlHistory id url source outcome bytesAtSwap now => exact refines_pushUrlHistory h hv
  | urlHistory id => exact .of_same h (map_ok (runFrom_urlHistory h id)) ⟨rfl, rfl⟩
  | findResumableByHint hint => exact refines_findResumableByHint h hint
  | resumeState id paranoid => exact refines_resumeState h paranoid
  | recordHostProfile host bestConns bestBps saturated now =>
    exact refines_recordHostProfile h hn hv
  | hostProfile host => exact .of_same h (map_ok (runFrom_hostProfile h host)) ⟨rfl, rfl⟩
  | delete id =>
    obtain ⟨hs, hcat⟩ := h.mono.remove id
    exact .of_eq (map_ok (a := ()) rfl) hs ⟨rfl, hcat⟩

end Call

/-! ### Whole runs -/

section Run

variable {lib : UrlLib} {ops : List Op}

/-- The calls keep to their part, in a run with `n` more calls to come. -/
def Valid : ℕ → List Op → Prop
  | _, [] => True
  | n, op :: ops => op.Valid (n + ops.length) ∧ Valid n ops

/-- From tables that hold a catalog. -/
theorem runs_of_sound (h : Sound (n + ops.length) db) (hn : n + ops.length < 2 ^ 63)
    (hv : Valid n ops) :
    Sound n (run lib db ops).2 ∧
      Catalog.Runs lib db.catalog ops (run lib db ops).1 (run lib db ops).2.catalog := by
  induction ops generalizing db with
  | nil => exact ⟨h, .nil _⟩
  | cons op ops ih =>
    rw [List.length_cons, ← Nat.add_assoc] at h hn
    obtain ⟨hs, hdoes⟩ : Refines lib (n + ops.length) db op := refines h hn hv.1
    obtain ⟨hend, hruns⟩ := ih hs (by omega) hv.2
    exact ⟨hend, .cons hdoes hruns⟩

theorem sound_empty (n : ℕ) : Sound n empty where
  ids := List.nodup_nil
  rows _ hr := absurd hr List.not_mem_nil
  numbered _ := rfl
  referring _ he := absurd he List.not_mem_nil
  hosts := List.nodup_nil
  samples _ hr := absurd hr List.not_mem_nil

/-- **The store refines the catalog.**  Every sequence of calls on new tables answers what the
catalog says: what was stored is read back, queries list what they select, and no row is ever
unreadable. -/
theorem run_refines (lib : UrlLib) (hv : Valid 0 ops) (hlen : ops.length < 2 ^ 63) :
    Catalog.Runs lib .empty ops (run lib empty ops).1 (run lib empty ops).2.catalog :=
  (runs_of_sound (sound_empty _) (by omega) hv).2

/-- A download with a part. -/
def partRecord : StoredRecord where
  id := 0
  filename := ['f']
  destDir := []
  originalUrl := "https://ex.com/f.zip?token=one"
  currentUrl := "https://ex.com/f.zip?token=one"
  finalUrl := "https://ex.com/f.zip?token=one"
  partPath := []
  createdAt := 7
  totalSize := some 9
  completedRanges := ⟨[(0, 4)]⟩
  bytesDone := 4

/-- It is stored, moves on, and is asked for. -/
def partOps : List Op :=
  [.insert partRecord 7, .checkpoint 0 ⟨[(0, 6)]⟩ 6, .setStatus 0 .paused none 8, .get 0,
    .list (some .paused)]

theorem run_refines_part :
    Catalog.Runs Database.tokenLib .empty partOps (run Database.tokenLib empty partOps).1
      (run Database.tokenLib empty partOps).2.catalog :=
  run_refines Database.tokenLib
    ⟨⟨by decide, by decide⟩, by show RangeSet.Storable _; decide, trivial, trivial, trivial,
      trivial⟩
    (by decide)

theorem run_append (db : Tables) (ops ops' : List Op) :
    (run lib db (ops ++ ops')).2 = (run lib (run lib db ops).2 ops').2 := by
  induction ops generalizing db with
  | nil => rfl
  | cons op ops ih => exact ih _

theorem valid_append {n : ℕ} {ops' : List Op} (h : Valid n (ops ++ ops')) :
    Valid (n + ops'.length) ops ∧ Valid n ops' := by
  induction ops with
  | nil => exact ⟨trivial, h⟩
  | cons op ops ih =>
    obtain ⟨hrest, h'⟩ := ih h.2
    have hop : op.Valid (n + (ops ++ ops').length) := h.1
    rw [List.length_append, Nat.add_comm ops.length, ← Nat.add_assoc] at hop
    exact ⟨⟨hop, hrest⟩, h'⟩

/-- **A download is kept until it is deleted.**  Whatever else is called, it keeps its identity, its
progress is that of its last checkpoint, and its chain of URLs only grows. -/
theorem download_kept (lib : UrlLib) {ops' : List Op} (hv : Valid 0 (ops ++ ops'))
    (hlen : (ops ++ ops').length < 2 ^ 63) (hdel : .delete id ∉ ops') {d : StoredRecord}
    (hget : ((getRecord id).runFrom (run lib empty ops).2).1 = .ok (some d)) :
    ∃ d' es es', ((getRecord id).runFrom (run lib empty (ops ++ ops')).2).1 = .ok (some d') ∧
      d'.identity = d.identity ∧
      d'.progress = ops'.foldl (fun p op => Catalog.progressAfter id op p) d.progress ∧
      ((urlHistory id).runFrom (run lib empty ops).2).1 = .ok es ∧
      ((urlHistory id).runFrom (run lib empty (ops ++ ops')).2).1 = .ok es' ∧ es <+: es' := by
  obtain ⟨hv₁, hv₂⟩ := valid_append hv
  rw [Nat.zero_add] at hv₁
  rw [List.length_append] at hlen
  obtain ⟨hs, -⟩ : Sound ops'.length (run lib empty ops).2 ∧ _ :=
    runs_of_sound (sound_empty _) (by omega) hv₁
  obtain ⟨hs', hruns⟩ : Sound 0 (run lib (run lib empty ops).2 ops').2 ∧ Catalog.Runs lib
      (run lib empty ops).2.catalog ops' _ (run lib (run lib empty ops).2 ops').2.catalog :=
    runs_of_sound (by rwa [Nat.zero_add]) (by omega) hv₂
  rw [runFrom_getRecord hs] at hget
  obtain ⟨d', hkept⟩ := hruns.kept hdel (Except.ok.inj hget)
  rw [run_append, runFrom_getRecord hs', runFrom_urlHistory hs, runFrom_urlHistory hs']
  exact ⟨d', _, _, congrArg Except.ok hkept.record, hkept.identity, hkept.progress, rfl, rfl,
    hkept.chain⟩

/-- The download is given another URL and moves on, while another one is deleted. -/
def laterOps : List Op :=
  [.swapUrl 0 "https://ex.com/f.zip?token=two" "https://ex.com/f.zip?token=two" none none none 1
    .autoVerified "accepted_auto" 8, .checkpoint 0 ⟨[(0, 6)]⟩ 6, .delete 1]

theorem download_kept_later :
    ∃ d' es es', ((getRecord 0).runFrom (run Database.tokenLib empty
        ([.insert partRecord 7] ++ laterOps)).2).1 = .ok (some d') ∧
      d'.identity = partRecord.identity ∧
      d'.progress = laterOps.foldl (fun p op => Catalog.progressAfter 0 op p) partRecord.progress ∧
      ((urlHistory 0).runFrom (run Database.tokenLib empty [.insert partRecord 7]).2).1 = .ok es ∧
      ((urlHistory 0).runFrom (run Database.tokenLib empty
        ([.insert partRecord 7] ++ laterOps)).2).1 = .ok es' ∧ es <+: es' := by
  have hv : Valid 0 ([.insert partRecord 7] ++ laterOps) :=
    ⟨⟨by decide, by decide⟩, trivial, by show RangeSet.Storable _; decide, trivial, trivial⟩
  have hget : ((getRecord 0).runFrom (run Database.tokenLib empty [.insert partRecord 7]).2).1 =
      .ok (some partRecord) := by
    have hv : Valid 0 [.insert partRecord 7] := ⟨⟨by decide, by decide⟩, trivial⟩
    have hs : Sound 0 (run Database.tokenLib empty [.insert partRecord 7]).2 :=
      (runs_of_sound (sound_empty 1) (by decide) hv).1
    rw [runFrom_getRecord hs]
    have hread : stored partRecord.toRow = some partRecord :=
      (holds_toRow (by decide) (by decide)).stored
    exact congrArg Except.ok hread
  exact download_kept Database.tokenLib hv (by decide) (by simp [laterOps]) hget

/-- **What a host is known by.**  The profile of a host is that of the last download that recorded
one, and it counts all of them. -/
theorem host_learned (lib : UrlLib) (hv : Valid 0 ops) (hlen : ops.length < 2 ^ 63)
    (host : String) : ((hostProfile host).runFrom (run lib empty ops).2).1 =
      .ok (Catalog.profileOf host (Catalog.learned host ops)) := by
  obtain ⟨hs, hruns⟩ : Sound 0 (run lib empty ops).2 ∧
      Catalog.Runs lib empty.catalog ops _ (run lib empty ops).2.catalog :=
    runs_of_sound (sound_empty _) (by omega) hv
  have hhost : (run lib empty ops).2.catalog.host host =
      Catalog.profileOf host ([] ++ Catalog.learned host ops) := hruns.host_eq rfl
  rw [runFrom_hostProfile hs, hhost, List.nil_append]

/-- Two downloads from one host. -/
def hostOps : List Op :=
  [.recordHostProfile "ex.com" 4 1000 false 7, .recordHostProfile "ex.com" 8 3000 true 8]

theorem host_learned_twice :
    ((hostProfile "ex.com").runFrom (run Database.tokenLib empty hostOps).2).1 =
      .ok (some ⟨"ex.com", some 8, some 3000, true, 2⟩) := by
  have hv : Valid 0 hostOps := ⟨⟨by decide, by decide⟩, ⟨by decide, by decide⟩, trivial⟩
  exact (host_learned Database.tokenLib hv (by decide) "ex.com").trans (by decide)

end Run

end Tables

end SwiftLoad
