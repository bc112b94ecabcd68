import SwiftLoad.Machine.Basic
import SwiftLoad.Machine.Faults
import SwiftLoad.Store.History

/-!
# The bookkeeping of URLs

`insert` and `swap_url` write two tables, and each of their statements commits on its own.  Here
the operations of `store/mod.rs` are split into these statements, any of which can fail, and the
process can die between two of them.

* `Statements.exec_noFaults` : without faults the calls are the operations of
  `Store/History.lean`.
* `Database.Booked` : every download has one history row for each URL it had, numbered from zero.
* `booked_iff_spared` : **in every run whose calls are spared, every download is booked, and a
  call keeps this if and only if it is spared too**: no statement after the first write of an
  `insert` or a `swap_url` is hit, but for a failing query of the next number in an `insert`.
-/

namespace SwiftLoad

namespace Statements

variable (lib : UrlLib)

/-- The row of `url_history` that `push_url_history` writes. -/
def historyEntry (id seq : ℕ) (url : String) (source : UrlSource) (outcome : String)
    (bytesAtSwap : ℕ) : UrlHistoryEntry where
  downloadId := id
  seq := seq
  urlRedacted := Redact.redact lib url
  host := Redact.hostOf lib url
  source := source.asStr
  outcome := outcome
  bytesDoneAtSwap := bytesAtSwap

/-- `push_url_history`.  A failing query counts as an empty chain; the row refers to its download,
and `(download_id, seq)` is the primary key. -/
def pushUrlHistory (id : ℕ) (url : String) (source : UrlSource) (outcome : String)
    (bytesAtSwap : ℕ) : Program (Faulty Database) (Abort StoreError) Unit := do
  let seq ← (Program.statement StoreError.sql fun db => .ok (db.nextSeq id, db)).unwrapOr 0
  Program.statement .sql fun db =>
    if db.row? id = none ∨ db.history.any (fun e => e.downloadId = id ∧ e.seq = seq) then
      .error .sql
    else .ok ((), { db with history := db.history ++
      [historyEntry lib id seq url source outcome bytesAtSwap] })

/-- The row of `downloads` can be written: its id is new and its numbers fit. -/
def Insertable (db : Database) (d : LinkedRecord) : Prop :=
  db.row? d.id = none ∧ sqlFits d.bytesDone ∧ d.totalSize.all sqlFits ∧
    d.maxConnections.all sqlFits ∧ sqlFits d.urlRefreshCount

instance (db : Database) (d : LinkedRecord) : Decidable (Insertable db d) :=
  inferInstanceAs (Decidable (_ ∧ _))

/-- The row `insert` writes: the clean flag and the error message are not taken from the record. -/
def inserted (d : LinkedRecord) : LinkedRecord :=
  { d with cleanShutdown := false, errorMessage := none }

/-- `Store::insert`. -/
def insert (d : LinkedRecord) : Program (Faulty Database) (Abort StoreError) Unit := do
  Program.statement .sql fun db =>
    if Insertable db d then
      .ok ((), { db with downloads := db.downloads ++ [inserted d] })
    else .error .sql
  pushUrlHistory lib d.id d.originalUrl .user "initial" 0

/-- An `UPDATE` of the row with this id, and the number of rows it changed. -/
def updateRow (id : ℕ) (f : LinkedRecord → LinkedRecord) (db : Database) : ℕ × Database :=
  ((db.downloads.filter fun r => r.id == id).length, db.update id f)

/-- `Store::checkpoint`. -/
def checkpoint (id : ℕ) (ranges : RangeSet) (bytesDone : ℕ) :
    Program (Faulty Database) (Abort StoreError) Unit := do
  let n ← Program.statement .sql fun db =>
    if sqlFits bytesDone then
      .ok (updateRow id (fun r => { r with completedRanges := ranges, bytesDone := bytesDone }) db)
    else .error .sql
  if n = 0 then throw (.failed (.notFound id))

/-- `Store::set_status`, but for the time of completion. -/
def setStatus (id : ℕ) (status : DownloadStatus) (error : Option String) :
    Program (Faulty Database) (Abort StoreError) Unit :=
  Program.statement .sql fun db =>
    .ok ((), db.update id fun r => { r with status := status, errorMessage := error })

/-- What `swap_url` makes of the row. -/
def swapped (newUrl resolved : String) (etag lastModified : Option String)
    (totalSize : Option ℕ) (acceptRanges : ℤ) (validation : ValidationState) (r : LinkedRecord) :
    LinkedRecord :=
  { r with
    currentUrl := newUrl
    finalUrl := resolved
    urlRefreshCount := r.urlRefreshCount + 1
    etag := etag
    lastModified := lastModified
    totalSize := totalSize <|> r.totalSize
    acceptRanges := acceptRanges
    validationState := validation
    status := .queued
    errorMessage := none }

/-- `Store::swap_url`. -/
def swapUrl (id : ℕ) (newUrl resolved : String) (etag lastModified : Option String)
    (totalSize : Option ℕ) (acceptRanges : ℤ) (validation : ValidationState) (outcome : String) :
    Program (Faulty Database) (Abort StoreError) Unit := do
  let bytesDone ← Program.statement .sql fun db => match db.row? id with
    | none => .error .sql
    | some r => .ok (r.bytesDone, db)
  let n ← Program.statement .sql fun db =>
    if totalSize.all sqlFits then
      .ok (updateRow id
        (swapped newUrl resolved etag lastModified totalSize acceptRanges validation) db)
    else .error .sql
  if n = 0 then throw (.failed (.notFound id))
  else pushUrlHistory lib id newUrl .user outcome bytesDone

/-- A call of the store. -/
inductive Call where
  | insert (d : LinkedRecord)
  | checkpoint (id : ℕ) (ranges : RangeSet) (bytesDone : ℕ)
  | setStatus (id : ℕ) (status : DownloadStatus) (error : Option String)
  | swapUrl (id : ℕ) (newUrl resolved : String) (etag lastModified : Option String)
      (totalSize : Option ℕ) (acceptRanges : ℤ) (validation : ValidationState) (outcome : String)

/-- The call as a program. -/
def Call.exec : Call → Program (Faulty Database) (Abort StoreError) Unit
  | insert d => Statements.insert lib d
  | checkpoint id ranges bytesDone => Statements.checkpoint id ranges bytesDone
  | setStatus id status error => Statements.setStatus id status error
  | swapUrl id newUrl resolved etag lastModified totalSize acceptRanges validation outcome =>
    Statements.swapUrl lib id newUrl resolved etag lastModified totalSize acceptRanges validation
      outcome

/-- A store that is called over and over, each call under its own faults.  After a crash the
database is opened again. -/
def machine : Machine Database (Call × (ℕ → Fault)) where
  step db e := some ((e.1.exec lib).under db e.2).2

end Statements

namespace Database

/-- The numbers of the history rows of a download, in the order they were written. -/
def entries (id : ℕ) (db : Database) : List ℕ :=
  (db.history.filter fun e => e.downloadId == id).map UrlHistoryEntry.seq

/-- One history row for each URL, numbered from zero. -/
def Booked (db : Database) : Prop :=
  ∀ r ∈ db.downloads, db.entries r.id = List.range (r.urlRefreshCount + 1)

instance (db : Database) : Decidable db.Booked :=
  inferInstanceAs (Decidable (∀ r ∈ db.downloads, _))

/-- Every history row refers to a download. -/
def Referring (db : Database) : Prop := ∀ e ∈ db.history, ∃ r ∈ db.downloads, r.id = e.downloadId

variable {db : Database} {id n : ℕ} {e : UrlHistoryEntry}

theorem row?_eq_none_iff : db.row? id = none ↔ ∀ r ∈ db.downloads, r.id ≠ id := by
  simp [row?]

theorem row?_isSome_iff : (db.row? id).isSome ↔ ∃ r ∈ db.downloads, r.id = id := by
  simp [row?]

theorem rows_length_eq_zero_iff :
    (db.downloads.filter fun r => r.id == id).length = 0 ↔ db.row? id = none := by
  simp [row?]

theorem mem_of_row? {r : LinkedRecord} (h : db.row? id = some r) : r ∈ db.downloads ∧ r.id = id :=
  ⟨List.mem_of_find?_eq_some h, by simpa using List.find?_some h⟩

theorem nextSeq_of_entries (h : db.entries id = List.range n) : db.nextSeq id = n := by
  change (db.entries id).max?.elim 0 (· + 1) = n
  rw [h]
  cases n with
  | zero => rfl
  | succ n =>
    have hmax : (List.range (n + 1)).max? = some n :=
      List.max?_eq_some_iff.2 ⟨by simp, fun b hb => by simp at hb; omega⟩
    rw [hmax]
    rfl

theorem entries_append (db : Database) : entries id { db with history := db.history ++ [e] } =
    if e.downloadId = id then db.entries id ++ [e.seq] else db.entries id := by
  unfold entries
  split_ifs with h <;> simp [h]

theorem entries_eq_nil (hr : db.Referring) (h : db.row? id = none) : db.entries id = [] := by
  refine List.map_eq_nil_iff.2 (List.filter_eq_nil_iff.2 fun e he heq => ?_)
  obtain ⟨r, hmem, hid⟩ := hr e he
  exact row?_eq_none_iff.1 h r hmem (hid.trans (by simpa using heq))

theorem update_eq_self {f : LinkedRecord → LinkedRecord} (h : ∀ r ∈ db.downloads, r.id ≠ id) :
    db.update id f = db := by
  have hmap : (db.downloads.map fun r => if r.id = id then f r else r) = db.downloads := by
    conv_rhs => rw [← List.map_id db.downloads]
    exact List.map_congr_left fun r hr => if_neg (h r hr)
  unfold update
  rw [hmap]

theorem mem_entries : n ∈ db.entries id ↔
    db.history.any (fun e => e.downloadId = id ∧ e.seq = n) = true := by
  simp [entries, and_assoc]

theorem mem_update {f : LinkedRecord → LinkedRecord} {r : LinkedRecord} :
    r ∈ (db.update id f).downloads ↔ ∃ r₀ ∈ db.downloads, r = if r₀.id = id then f r₀ else r₀ := by
  simp [update, eq_comm]

/-! ### What keeps the downloads booked -/

section Writes

variable {f : LinkedRecord → LinkedRecord} {r : LinkedRecord}

/-- A new row with its first URL is booked if it counts no refresh. -/
theorem booked_insert_iff (hb : db.Booked) (hr : db.Referring) (hnone : db.row? r.id = none)
    (he : e.downloadId = r.id) (hseq : e.seq = 0) :
    Booked ⟨db.downloads ++ [r], db.history ++ [e]⟩ ↔ r.urlRefreshCount = 0 := by
  have hentries : ∀ i, entries i ⟨db.downloads ++ [r], db.history ++ [e]⟩ =
      if e.downloadId = i then db.entries i ++ [e.seq] else db.entries i := fun i =>
    entries_append db
  have hown : entries r.id ⟨db.downloads ++ [r], db.history ++ [e]⟩ = [0] := by
    rw [hentries, if_pos he, entries_eq_nil hr hnone, hseq]
    rfl
  constructor
  · intro h
    have hlen := congrArg List.length (hown.symm.trans (h r (by simp)))
    simpa using hlen.symm
  · intro hzero r' hr'
    rcases List.mem_append.1 hr' with hmem | hmem
    · rw [hentries, if_neg (he ▸ (row?_eq_none_iff.1 hnone r' hmem).symm)]
      exact hb r' hmem
    · obtain rfl := List.mem_singleton.1 hmem
      rw [hown, hzero]
      rfl

theorem not_booked_insert (hr : db.Referring) (hnone : db.row? r.id = none) :
    ¬Booked ⟨db.downloads ++ [r], db.history⟩ := by
  intro h
  have hnil : db.entries r.id = [] := entries_eq_nil hr hnone
  have hlen := congrArg List.length (hnil.symm.trans (h r (by simp)))
  simp at hlen

theorem Booked.update (hb : db.Booked)
    (hf : ∀ r, (f r).id = r.id ∧ (f r).urlRefreshCount = r.urlRefreshCount) :
    (db.update id f).Booked := by
  intro r hr
  obtain ⟨r₀, hmem, rfl⟩ := mem_update.1 hr
  have h := hb r₀ hmem
  split_ifs
  · rw [(hf r₀).1, (hf r₀).2]
    exact h
  · exact h

theorem Booked.swap (hb : db.Booked) (hr : r ∈ db.downloads)
    (hf : ∀ r, (f r).id = r.id ∧ (f r).urlRefreshCount = r.urlRefreshCount + 1)
    (he : e.downloadId = r.id) (hseq : e.seq = r.urlRefreshCount + 1) :
    Booked { db.update r.id f with history := db.history ++ [e] } := by
  intro r' hr'
  obtain ⟨r₀, hmem, rfl⟩ := mem_update.1 hr'
  have hentries : ∀ i, entries i { db.update r.id f with history := db.history ++ [e] } =
      if e.downloadId = i then db.entries i ++ [e.seq] else db.entries i := fun i =>
    entries_append db
  split_ifs with hid
  · have hcount : r₀.urlRefreshCount = r.urlRefreshCount := by
      have hlen := congrArg List.length ((hb r₀ hmem).symm.trans (hid ▸ hb r hr))
      simpa using hlen
    rw [hentries, (hf r₀).1, if_pos (he.trans hid.symm), hb r₀ hmem, hseq, (hf r₀).2,
      hcount, ← List.range_succ]
  · rw [hentries, if_neg fun h => hid (h.symm.trans he)]
    exact hb r₀ hmem

theorem not_booked_swap (hb : db.Booked) (hr : r ∈ db.downloads)
    (hf : ∀ r, (f r).id = r.id ∧ (f r).urlRefreshCount = r.urlRefreshCount + 1) :
    ¬(db.update r.id f).Booked := by
  intro h
  have hupd := h (f r) (mem_update.2 ⟨r, hr, (if_pos rfl).symm⟩)
  have hown : (db.update r.id f).entries (f r).id = List.range (r.urlRefreshCount + 1) := by
    rw [(hf r).1]
    exact hb r hr
  have hlen := congrArg List.length (hown.symm.trans hupd)
  simp [(hf r).2] at hlen

theorem Referring.update (hr : db.Referring) (hf : ∀ r, (f r).id = r.id) :
    (db.update id f).Referring := by
  intro e he
  obtain ⟨r, hmem, hid⟩ := hr e he
  refine ⟨if r.id = id then f r else r, mem_update.2 ⟨r, hmem, rfl⟩, ?_⟩
  split_ifs
  · rw [hf, hid]
  · exact hid

theorem Referring.append (hr : db.Referring) (hmem : r ∈ db.downloads)
    (he : e.downloadId = r.id) : Referring { db with history := db.history ++ [e] } := by
  intro e' he'
  rcases List.mem_append.1 he' with he' | he'
  · exact hr e' he'
  · obtain rfl := List.mem_singleton.1 he'
    exact ⟨r, hmem, he.symm⟩

theorem Referring.row (hr : db.Referring) (r : LinkedRecord) :
    Referring { db with downloads := db.downloads ++ [r] } := by
  intro e he
  obtain ⟨r', hmem, hid⟩ := hr e he
  exact ⟨r', List.mem_append_left _ hmem, hid⟩

end Writes

end Database

namespace Statements

open Database

variable {lib : UrlLib} {db : Database} {faults : ℕ → Fault} {id n : ℕ}

/-- The row of a chain with `n` entries is written. -/
def Lands (n : ℕ) (faults : ℕ → Fault) : Prop :=
  faults 1 = .nothing ∧ (faults 0 = .nothing ∨ faults 0 = .fails ∧ n = 0)

instance (n : ℕ) (faults : ℕ → Fault) : Decidable (Lands n faults) :=
  inferInstanceAs (Decidable (_ ∧ _))

/-- `push_url_history` appends the next number, or leaves the tables as they were. -/
theorem pushUrlHistory_under (hrow : (db.row? id).isSome) (hn : db.entries id = List.range n)
    (url : String) (source : UrlSource) (outcome : String) (bytesAtSwap : ℕ) :
    (pushUrlHistory lib id url source outcome bytesAtSwap).under db faults =
        (.ok (), { db with history := db.history ++
          [historyEntry lib id n url source outcome bytesAtSwap] }) ∧ Lands n faults ∨
      (∃ a, (pushUrlHistory lib id url source outcome bytesAtSwap).under db faults =
        (.error a, db)) ∧ ¬Lands n faults := by
  have hnone : db.row? id ≠ none := Option.ne_none_iff_isSome.2 hrow
  unfold pushUrlHistory
  rw [Program.under_unwrapOr_bind, nextSeq_of_entries hn]
  -- The statement that writes the row, after the query has answered `seq`.
  by_cases h₁ : faults 1 = .nothing
  · have h₁' : (fun n => faults (n + 1)) 0 = Fault.nothing := h₁
    cases h₀ : faults 0 with
    | nothing =>
      refine .inl ⟨?_, h₁, .inl h₀⟩
      dsimp only
      rw [Program.under_statement h₁', if_neg]
      rw [← mem_entries, hn]
      simp [hnone]
    | fails =>
      dsimp only
      rw [Program.under_statement h₁']
      by_cases hzero : n = 0
      · refine .inl ⟨?_, h₁, .inr ⟨h₀, hzero⟩⟩
        rw [if_neg, hzero]
        rw [← mem_entries, hn]
        simp [hnone, hzero]
      · refine .inr ⟨?_, ?_⟩
        · rw [if_pos]
          · exact ⟨_, rfl⟩
          · rw [← mem_entries, hn]
            exact .inr (List.mem_range.2 (Nat.pos_of_ne_zero hzero))
        · simp [Lands, h₀, hzero]
    | crashes => exact .inr ⟨⟨_, rfl⟩, by simp [Lands, h₀]⟩
  · refine .inr ⟨?_, fun h => h₁ h.1⟩
    cases faults 0 with
    | nothing => exact Program.under_statement_of_ne h₁
    | fails => exact Program.under_statement_of_ne h₁
    | crashes => exact ⟨_, rfl⟩

/-- `insert` writes nothing, or the row alone, or the row and its first URL. -/
theorem insert_under (lib : UrlLib) (hr : db.Referring) (d : LinkedRecord) (faults : ℕ → Fault) :
    (∃ a, (insert lib d).under db faults = (.error a, db)) ∧
        ¬(faults 0 = .nothing ∧ Insertable db d) ∨
      (faults 0 = .nothing ∧ Insertable db d) ∧
        ((insert lib d).under db faults =
            (.ok (), ⟨db.downloads ++ [inserted d], db.history ++
              [historyEntry lib d.id 0 d.originalUrl .user "initial" 0]⟩) ∧
            Lands 0 (fun n => faults (n + 1)) ∨
          (∃ a, (insert lib d).under db faults =
            (.error a, ⟨db.downloads ++ [inserted d], db.history⟩)) ∧
            ¬Lands 0 fun n => faults (n + 1)) := by
  by_cases h₀ : faults 0 = .nothing
  · by_cases hins : Insertable db d
    · refine .inr ⟨⟨h₀, hins⟩, ?_⟩
      unfold insert
      rw [Program.under_statement_bind h₀, if_pos hins]
      have hrow : ((⟨db.downloads ++ [inserted d], db.history⟩ : Database).row? d.id).isSome :=
        row?_isSome_iff.2 ⟨inserted d, by simp, rfl⟩
      have hn : (⟨db.downloads ++ [inserted d], db.history⟩ : Database).entries d.id =
          List.range 0 := by
        have hnil : db.entries d.id = [] := entries_eq_nil hr hins.1
        exact hnil
      exact pushUrlHistory_under hrow hn _ _ _ _
    · refine .inl ⟨⟨.failed .sql, ?_⟩, fun h => hins h.2⟩
      unfold insert
      rw [Program.under_statement_bind h₀, if_neg hins]
  · exact .inl ⟨Program.under_statement_bind_of_ne h₀, fun h => h₀ h.1⟩

/-- `swap_url` writes nothing, or the row alone, or the row and the new URL. -/
theorem swapUrl_under (lib : UrlLib) (hb : db.Booked) (faults : ℕ → Fault) (id : ℕ)
    (newUrl resolved : String) (etag lastModified : Option String) (totalSize : Option ℕ)
    (acceptRanges : ℤ) (validation : ValidationState) (outcome : String) :
    (∃ a, (swapUrl lib id newUrl resolved etag lastModified totalSize acceptRanges validation
          outcome).under db faults = (.error a, db)) ∧
        ¬(faults 0 = .nothing ∧ faults 1 = .nothing ∧ (db.row? id).isSome ∧
          totalSize.all sqlFits) ∨
      (faults 0 = .nothing ∧ faults 1 = .nothing ∧ (db.row? id).isSome ∧
          totalSize.all sqlFits) ∧ ∃ r, db.row? id = some r ∧
        ((swapUrl lib id newUrl resolved etag lastModified totalSize acceptRanges validation
              outcome).under db faults =
            (.ok (), { db.update id (swapped newUrl resolved etag lastModified totalSize
                acceptRanges validation) with history := db.history ++
              [historyEntry lib id (r.urlRefreshCount + 1) newUrl .user outcome r.bytesDone] }) ∧
            Lands (r.urlRefreshCount + 1) (fun n => faults (n + 2)) ∨
          (∃ a, (swapUrl lib id newUrl resolved etag lastModified totalSize acceptRanges
              validation outcome).under db faults =
            (.error a, db.update id (swapped newUrl resolved etag lastModified totalSize
                acceptRanges validation))) ∧
            ¬Lands (r.urlRefreshCount + 1) fun n => faults (n + 2)) := by
  by_cases h₀ : faults 0 = .nothing
  · unfold swapUrl
    rw [Program.under_statement_bind h₀]
    cases hrow : db.row? id with
    | none => exact .inl ⟨⟨_, rfl⟩, by simp⟩
    | some r =>
      obtain ⟨hmem, hid⟩ := mem_of_row? hrow
      by_cases h₁ : (fun n => faults (n + 1)) 0 = .nothing
      · dsimp only
        rw [Program.under_statement_bind h₁]
        by_cases hfit : totalSize.all sqlFits
        · refine .inr ⟨⟨h₀, h₁, rfl, hfit⟩, r, rfl, ?_⟩
          rw [if_pos hfit]
          dsimp only [updateRow]
          rw [if_neg (mt rows_length_eq_zero_iff.1 (by rw [hrow]; nofun))]
          have hrow' : ((db.update id (swapped newUrl resolved etag lastModified totalSize
              acceptRanges validation)).row? id).isSome :=
            row?_isSome_iff.2 ⟨swapped newUrl resolved etag lastModified totalSize acceptRanges
              validation r, List.mem_map.2 ⟨r, hmem, if_pos hid⟩, hid⟩
          have hn : (db.update id (swapped newUrl resolved etag lastModified totalSize
              acceptRanges validation)).entries id = List.range (r.urlRefreshCount + 1) :=
            hid ▸ hb r hmem
          exact pushUrlHistory_under hrow' hn _ _ _ _
        · refine .inl ⟨⟨.failed .sql, ?_⟩, fun h => hfit h.2.2.2⟩
          rw [if_neg hfit]
      · exact .inl ⟨Program.under_statement_bind_of_ne h₁, fun h => h₁ h.2.1⟩
  · exact .inl ⟨Program.under_statement_bind_of_ne h₀, fun h => h₀ h.1⟩

/-- Every call but `insert` and `swap_url` is one statement, and nothing of what it writes is
counted. -/
theorem checkpoint_under (db : Database) (faults : ℕ → Fault) (id : ℕ) (ranges : RangeSet)
    (bytesDone : ℕ) :
    (checkpoint id ranges bytesDone).under db faults = (.ok (), db.update id fun r =>
        { r with completedRanges := ranges, bytesDone := bytesDone }) ∨
      ∃ a, (checkpoint id ranges bytesDone).under db faults = (.error a, db) := by
  by_cases h₀ : faults 0 = .nothing
  · unfold checkpoint
    rw [Program.under_statement_bind h₀]
    by_cases hfit : sqlFits bytesDone
    · rw [if_pos hfit]
      dsimp only [updateRow]
      by_cases hnil : (db.downloads.filter fun r => r.id == id).length = 0
      · refine .inr ⟨.failed (.notFound id), ?_⟩
        rw [if_pos hnil, update_eq_self (row?_eq_none_iff.1 (rows_length_eq_zero_iff.1 hnil))]
        rfl
      · rw [if_neg hnil]
        exact .inl rfl
    · rw [if_neg hfit]
      exact .inr ⟨_, rfl⟩
  · exact .inr (Program.under_statement_bind_of_ne h₀)

theorem setStatus_under (db : Database) (faults : ℕ → Fault) (id : ℕ) (status : DownloadStatus)
    (error : Option String) :
    (setStatus id status error).under db faults = (.ok (), db.update id fun r =>
        { r with status := status, errorMessage := error }) ∨
      ∃ a, (setStatus id status error).under db faults = (.error a, db) := by
  by_cases h₀ : faults 0 = .nothing
  · exact .inl (Program.under_statement h₀)
  · exact .inr (Program.under_statement_of_ne h₀)

/-! ### Spared calls -/

/-- No statement after the first write of the call is hit, but for a failing query of the next
number in an `insert`, and an inserted record counts no refresh. -/
def Spared (db : Database) (e : Call × (ℕ → Fault)) : Prop :=
  match e.1 with
  | .insert d => e.2 0 = .nothing → Insertable db d →
      e.2 1 ≠ .crashes ∧ e.2 2 = .nothing ∧ d.urlRefreshCount = 0
  | .swapUrl id _ _ _ _ totalSize _ _ _ => e.2 0 = .nothing → e.2 1 = .nothing →
      (db.row? id).isSome → totalSize.all sqlFits → e.2 2 = .nothing ∧ e.2 3 = .nothing
  | _ => True

/-- After the call every download is booked, and a call that fails has changed nothing. -/
def Atomic (lib : UrlLib) (db : Database) (e : Call × (ℕ → Fault)) : Prop :=
  ((e.1.exec lib).under db e.2).2.Booked ∧
    ∀ a, ((e.1.exec lib).under db e.2).1 = .error a → ((e.1.exec lib).under db e.2).2 = db

theorem atomic_of_error (hb : db.Booked) {e : Call × (ℕ → Fault)} {a : Abort StoreError}
    (h : (e.1.exec lib).under db e.2 = (.error a, db)) : Atomic lib db e := by
  unfold Atomic
  rw [h]
  exact ⟨hb, fun _ _ => rfl⟩

theorem atomic_of_ok {e : Call × (ℕ → Fault)} {db' : Database}
    (h : (e.1.exec lib).under db e.2 = (.ok (), db')) : Atomic lib db e ↔ db'.Booked := by
  unfold Atomic
  rw [h]
  exact ⟨fun h => h.1, fun h => ⟨h, fun _ h => by cases h⟩⟩

/-- A call that fails and leaves a download that is not booked. -/
theorem not_atomic_of_error {e : Call × (ℕ → Fault)} {a : Abort StoreError} {db' : Database}
    (h : (e.1.exec lib).under db e.2 = (.error a, db')) (hdb : ¬db'.Booked) :
    ¬Atomic lib db e := by
  unfold Atomic
  rw [h]
  exact fun h => hdb h.1

theorem spared_insert_iff (hb : db.Booked) (hr : db.Referring) (d : LinkedRecord) :
    Spared db (.insert d, faults) ↔ Atomic lib db (.insert d, faults) := by
  rcases insert_under lib hr d faults with
    ⟨⟨a, ha⟩, hnot⟩ | ⟨⟨h₀, hins⟩, ⟨hok, hl⟩ | ⟨⟨a, ha⟩, hl⟩⟩
  · exact ⟨fun _ => atomic_of_error hb ha, fun _ h₀ hins => absurd ⟨h₀, hins⟩ hnot⟩
  · have hbooked := booked_insert_iff (r := inserted d)
      (e := historyEntry lib d.id 0 d.originalUrl .user "initial" 0) hb hr hins.1 rfl rfl
    rw [atomic_of_ok (e := (.insert d, faults)) hok, hbooked]
    refine ⟨fun h => (h h₀ hins).2.2, fun h _ _ => ⟨?_, hl.1, h⟩⟩
    intro hcrash
    rcases hl.2 with hq | ⟨hq, -⟩ <;> cases hq.symm.trans hcrash
  · refine ⟨fun h => absurd (h h₀ hins) ?_, fun h =>
      absurd h (not_atomic_of_error ha (not_booked_insert hr hins.1))⟩
    rintro ⟨h₁, h₂, -⟩
    cases hq : faults 1 with
    | nothing => exact hl ⟨h₂, .inl hq⟩
    | fails => exact hl ⟨h₂, .inr ⟨hq, rfl⟩⟩
    | crashes => exact h₁ hq

theorem spared_swapUrl_iff (hb : db.Booked) (id : ℕ) (newUrl resolved : String)
    (etag lastModified : Option String) (totalSize : Option ℕ) (acceptRanges : ℤ)
    (validation : ValidationState) (outcome : String) :
    Spared db (.swapUrl id newUrl resolved etag lastModified totalSize acceptRanges validation
        outcome, faults) ↔
      Atomic lib db (.swapUrl id newUrl resolved etag lastModified totalSize acceptRanges
        validation outcome, faults) := by
  have hf : ∀ r, (swapped newUrl resolved etag lastModified totalSize acceptRanges validation
      r).id = r.id ∧ (swapped newUrl resolved etag lastModified totalSize acceptRanges validation
      r).urlRefreshCount = r.urlRefreshCount + 1 := fun _ => ⟨rfl, rfl⟩
  rcases swapUrl_under lib hb faults id newUrl resolved etag lastModified
      totalSize acceptRanges validation outcome with
    ⟨⟨a, ha⟩, hnot⟩ | ⟨⟨h₀, h₁, hrow, hfit⟩, r, hr, ⟨hok, hl⟩ | ⟨⟨a, ha⟩, hl⟩⟩
  · exact ⟨fun _ => atomic_of_error hb ha,
      fun _ h₀ h₁ hrow hfit => absurd ⟨h₀, h₁, hrow, hfit⟩ hnot⟩
  · obtain ⟨hmem, rfl⟩ := mem_of_row? hr
    have hbooked := hb.swap hmem hf (e := historyEntry lib r.id (r.urlRefreshCount + 1) newUrl
      .user outcome r.bytesDone) rfl rfl
    refine ⟨fun _ => (atomic_of_ok (e := (.swapUrl r.id newUrl resolved etag lastModified
      totalSize acceptRanges validation outcome, faults)) hok).2 hbooked, fun _ _ _ _ _ => ?_⟩
    refine ⟨?_, hl.1⟩
    rcases hl.2 with hq | ⟨-, hq⟩
    · exact hq
    · cases hq
  · obtain ⟨hmem, rfl⟩ := mem_of_row? hr
    exact ⟨fun h => absurd ⟨(h h₀ h₁ hrow hfit).2, .inl (h h₀ h₁ hrow hfit).1⟩ hl,
      fun h => absurd h (not_atomic_of_error ha (not_booked_swap hb hmem hf))⟩

/-- A call that only updates rows, and neither their ids nor their counts. -/
theorem atomic_of_update (hb : db.Booked) {e : Call × (ℕ → Fault)}
    {f : LinkedRecord → LinkedRecord}
    (hf : ∀ r, (f r).id = r.id ∧ (f r).urlRefreshCount = r.urlRefreshCount)
    (h : (e.1.exec lib).under db e.2 = (.ok (), db.update id f) ∨
      ∃ a, (e.1.exec lib).under db e.2 = (.error a, db)) : Atomic lib db e := by
  rcases h with h | ⟨a, h⟩
  · exact (atomic_of_ok h).2 (hb.update hf)
  · exact atomic_of_error hb h

theorem spared_iff_atomic (hb : db.Booked) (hr : db.Referring) (e : Call × (ℕ → Fault)) :
    Spared db e ↔ Atomic lib db e := by
  obtain ⟨call, faults⟩ := e
  cases call with
  | insert d => exact spared_insert_iff hb hr d
  | checkpoint id ranges bytesDone =>
    exact iff_of_true trivial (atomic_of_update (e := (.checkpoint id ranges bytesDone, faults))
      (f := fun r => { r with completedRanges := ranges, bytesDone := bytesDone }) hb
      (fun _ => ⟨rfl, rfl⟩) (checkpoint_under db faults id ranges bytesDone))
  | setStatus id status error =>
    exact iff_of_true trivial (atomic_of_update (e := (.setStatus id status error, faults))
      (f := fun r => { r with status := status, errorMessage := error }) hb
      (fun _ => ⟨rfl, rfl⟩) (setStatus_under db faults id status error))
  | swapUrl id newUrl resolved etag lastModified totalSize acceptRanges validation outcome =>
    exact spared_swapUrl_iff hb id newUrl resolved etag lastModified totalSize acceptRanges
      validation outcome

/-- No call leaves a history row without its download. -/
theorem referring_under (hb : db.Booked) (hr : db.Referring) (call : Call)
    (faults : ℕ → Fault) : ((call.exec lib).under db faults).2.Referring := by
  cases call with
  | insert d =>
    change ((insert lib d).under db faults).2.Referring
    rcases insert_under lib hr d faults with
      ⟨⟨a, ha⟩, -⟩ | ⟨-, ⟨hok, -⟩ | ⟨⟨a, ha⟩, -⟩⟩
    · rw [ha]
      exact hr
    · rw [hok]
      exact (hr.row (inserted d)).append (List.mem_append_right _ List.mem_cons_self) rfl
    · rw [ha]
      exact hr.row (inserted d)
  | checkpoint id ranges bytesDone =>
    change ((checkpoint id ranges bytesDone).under db faults).2.Referring
    rcases checkpoint_under db faults id ranges bytesDone with h | ⟨a, h⟩
    · rw [h]
      exact hr.update fun _ => rfl
    · rw [h]
      exact hr
  | setStatus id status error =>
    change ((setStatus id status error).under db faults).2.Referring
    rcases setStatus_under db faults id status error with h | ⟨a, h⟩
    · rw [h]
      exact hr.update fun _ => rfl
    · rw [h]
      exact hr
  | swapUrl id newUrl resolved etag lastModified totalSize acceptRanges validation outcome =>
    change ((swapUrl lib id newUrl resolved etag lastModified totalSize acceptRanges validation
      outcome).under db faults).2.Referring
    rcases swapUrl_under lib hb faults id newUrl resolved etag lastModified
        totalSize acceptRanges validation outcome with
      ⟨⟨a, ha⟩, -⟩ | ⟨-, r, hrow, ⟨hok, -⟩ | ⟨⟨a, ha⟩, -⟩⟩
    · rw [ha]
      exact hr
    · obtain ⟨hmem, rfl⟩ := mem_of_row? hrow
      rw [hok]
      exact Referring.append (r := swapped newUrl resolved etag lastModified totalSize acceptRanges
        validation r) (hr.update fun _ => rfl) (mem_update.2 ⟨r, hmem, (if_pos rfl).symm⟩) rfl
    · rw [ha]
      exact hr.update fun _ => rfl

theorem booked_of_reaches (h : (machine lib).ReachesUnder Spared empty db) :
    db.Booked ∧ db.Referring := by
  refine h.invariant (I := fun db => db.Booked ∧ db.Referring)
    ⟨fun r hr => absurd hr List.not_mem_nil, fun e he => absurd he List.not_mem_nil⟩ ?_
  rintro db e db' ⟨hb, hr⟩ hs hstep
  obtain rfl := Option.some.inj hstep
  exact ⟨((spared_iff_atomic hb hr e).1 hs).1, referring_under hb hr e.1 e.2⟩

/-- **The bookkeeping holds exactly while calls are spared.**  In every run whose calls are spared,
every download has one history row for each URL it had, and a call keeps this and changes nothing
when it fails if and only if it is spared too. -/
theorem booked_iff_spared (h : (machine lib).ReachesUnder Spared empty db) :
    db.Booked ∧ ∀ e, Spared db e ↔
      ((e.1.exec lib).under db e.2).2.Booked ∧
        ∀ a, ((e.1.exec lib).under db e.2).1 = .error a →
          ((e.1.exec lib).under db e.2).2 = db :=
  ⟨(booked_of_reaches h).1,
    fun e => spared_iff_atomic (booked_of_reaches h).1 (booked_of_reaches h).2 e⟩

/-- A download of a URL with a token. -/
def tokenRecord : LinkedRecord where
  id := 0
  filename := ['f']
  destDir := []
  originalUrl := "https://ex.com/f.zip?token=one"
  currentUrl := "https://ex.com/f.zip?token=one"
  finalUrl := "https://ex.com/f.zip?token=one"

/-- A refresh of it. -/
def tokenSwap : Call := .swapUrl 0 "https://ex.com/f.zip?token=two" "https://ex.com/f.zip?token=two"
  none none none 1 .autoVerified "accepted_auto"

/-- The tables after the download is added and refreshed. -/
def tokenTables : Database :=
  ((tokenSwap.exec tokenLib).under
    (((Call.insert tokenRecord).exec tokenLib).under empty Program.noFaults).2
    Program.noFaults).2

theorem booked_iff_spared_token :
    (tokenTables.Booked ∧ ∀ e, Spared tokenTables e ↔
      ((e.1.exec tokenLib).under tokenTables e.2).2.Booked ∧
        ∀ a, ((e.1.exec tokenLib).under tokenTables e.2).1 = .error a →
          ((e.1.exec tokenLib).under tokenTables e.2).2 = tokenTables) ∧
      tokenTables.downloads.map (fun r => r.urlRefreshCount) = [1] ∧
      tokenTables.entries 0 = [0, 1] := by
  refine ⟨booked_iff_spared (Machine.ReachesUnder.tail
    (e := (tokenSwap, Program.noFaults)) (.single
      (e := (.insert tokenRecord, Program.noFaults)) (fun _ _ => ⟨nofun, rfl, rfl⟩) rfl)
    (fun _ _ _ _ => ⟨rfl, rfl⟩) rfl), ?_⟩
  decide +kernel

/-- The third statement of a call fails. -/
def thirdFails : ℕ → Fault := fun n => if n = 2 then .fails else .nothing

/-- An `insert` whose third statement fails returns an error and leaves a download without a URL. -/
theorem insert_half_done :
    ∃ db, (machine tokenLib).Reaches empty db ∧ ¬db.Booked ∧ db ≠ empty ∧
      ((Call.insert tokenRecord).exec tokenLib).under empty thirdFails =
        (.error (.failed .sql), db) := by
  refine ⟨⟨[inserted tokenRecord], []⟩,
    .single (e := (.insert tokenRecord, thirdFails)) trivial ?_, ?_, ?_, ?_⟩
  · decide +kernel
  · decide +kernel
  · decide +kernel
  · decide +kernel

/-! ### Without faults -/

theorem nextSeq_not_mem : db.nextSeq id ∉ db.entries id := by
  intro hmem
  change (db.entries id).max?.elim 0 (· + 1) ∈ db.entries id at hmem
  cases hmax : (db.entries id).max? with
  | none =>
    rw [List.max?_eq_none_iff.1 hmax] at hmem
    cases hmem
  | some n =>
    rw [hmax] at hmem
    have hle := (List.max?_eq_some_iff.1 hmax).2 _ hmem
    exact absurd hle (Nat.not_succ_le_self n)

theorem pushUrlHistory_noFaults (id : ℕ) (url : String) (source : UrlSource) (outcome : String)
    (bytesAtSwap : ℕ) :
    (pushUrlHistory lib id url source outcome bytesAtSwap).under db Program.noFaults =
      Program.uncrashed ((Database.pushUrlHistory lib id url source outcome bytesAtSwap).runFrom
        db) := by
  unfold pushUrlHistory Database.pushUrlHistory
  rw [Program.under_unwrapOr_bind, Program.runFrom_bind]
  change (Program.statement _ _).under db Program.noFaults = _
  rw [Program.under_statement rfl]
  dsimp only [Program.runFrom_get]
  by_cases hrow : db.row? id = none
  · rw [if_pos (.inl hrow), if_pos hrow]
    rfl
  · rw [if_neg (not_or.2 ⟨hrow, mt mem_entries.2 nextSeq_not_mem⟩), if_neg hrow]
    rfl

theorem insert_noFaults (d : LinkedRecord) :
    (insert lib d).under db Program.noFaults =
      Program.uncrashed ((Database.insert lib d).runFrom db) := by
  unfold insert Database.insert
  rw [Program.under_statement_bind rfl, Program.runFrom_bind]
  dsimp only [Program.runFrom_get]
  have hiff : Insertable db d ↔ ¬((db.row? d.id).isSome ∨
      ¬(sqlFits d.bytesDone ∧ d.totalSize.all sqlFits ∧ d.maxConnections.all sqlFits ∧
        sqlFits d.urlRefreshCount)) := by
    rw [not_or, not_not, Option.not_isSome_iff_eq_none]
    rfl
  by_cases hins : Insertable db d
  · rw [if_pos hins, if_neg (hiff.1 hins), Program.runFrom_bind]
    exact pushUrlHistory_noFaults _ _ _ _ _
  · rw [if_neg hins, if_pos (not_not.1 (mt hiff.2 hins))]
    rfl

theorem checkpoint_noFaults (id : ℕ) (ranges : RangeSet) (bytesDone : ℕ) :
    (checkpoint id ranges bytesDone).under db Program.noFaults =
      Program.uncrashed ((Database.checkpoint id ranges bytesDone).runFrom db) := by
  unfold checkpoint Database.checkpoint
  rw [Program.under_statement_bind rfl, Program.runFrom_bind]
  dsimp only [Program.runFrom_get]
  by_cases hfit : sqlFits bytesDone
  · rw [if_pos hfit, if_neg (not_not.2 hfit)]
    dsimp only [updateRow]
    cases hrow : db.row? id with
    | none =>
      rw [rows_length_eq_zero_iff.2 hrow, update_eq_self (row?_eq_none_iff.1 hrow)]
      rfl
    | some r =>
      rw [if_neg (mt rows_length_eq_zero_iff.1 (by rw [hrow]; nofun)), if_neg nofun]
      rfl
  · rw [if_neg hfit, if_pos hfit]
    rfl

theorem swapUrl_noFaults (id : ℕ) (newUrl resolved : String) (etag lastModified : Option String)
    (totalSize : Option ℕ) (acceptRanges : ℤ) (validation : ValidationState) (outcome : String) :
    (swapUrl lib id newUrl resolved etag lastModified totalSize acceptRanges validation
        outcome).under db Program.noFaults =
      Program.uncrashed ((Database.swapUrl lib id newUrl resolved etag lastModified totalSize
        acceptRanges validation outcome).runFrom db) := by
  unfold swapUrl Database.swapUrl
  rw [Program.under_statement_bind rfl, Program.runFrom_bind]
  dsimp only [Program.runFrom_get]
  cases hrow : db.row? id with
  | none => rfl
  | some r =>
    dsimp only
    rw [Program.under_statement_bind rfl]
    by_cases hfit : totalSize.all sqlFits
    · rw [if_pos hfit, if_neg (not_not.2 hfit), Program.runFrom_bind]
      dsimp only [updateRow]
      rw [if_neg (mt rows_length_eq_zero_iff.1 (by rw [hrow]; nofun))]
      exact pushUrlHistory_noFaults _ _ _ _ _
    · rw [if_neg hfit, if_pos hfit]
      rfl

/-- The call as an operation without statements, where there is one. -/
def Call.op : Call → Option Op
  | insert d => some (.insert d)
  | checkpoint id ranges bytesDone => some (.checkpoint id ranges bytesDone)
  | setStatus _ _ _ => none
  | swapUrl id newUrl resolved etag lastModified totalSize acceptRanges validation outcome =>
    some (.swapUrl id newUrl resolved etag lastModified totalSize acceptRanges validation outcome)

/-- Without faults the statements of a call are the operation. -/
theorem exec_noFaults {call : Call} {op : Op} (h : call.op = some op) (db : Database) :
    (call.exec lib).under db Program.noFaults =
      Program.uncrashed ((op.exec lib).runFrom db) := by
  cases call with
  | insert d =>
    obtain rfl := Option.some.inj h
    exact insert_noFaults d
  | checkpoint id ranges bytesDone =>
    obtain rfl := Option.some.inj h
    exact checkpoint_noFaults id ranges bytesDone
  | setStatus id status error => cases h
  | swapUrl id newUrl resolved etag lastModified totalSize acceptRanges validation outcome =>
    obtain rfl := Option.some.inj h
    exact swapUrl_noFaults id newUrl resolved etag lastModified totalSize acceptRanges validation
      outcome

end Statements

end SwiftLoad
