import SwiftLoad.Store.Catalog

/-!
# The tables hold a catalog

What stands in the columns is read back as the catalog, and what a statement writes changes the
catalog in the same way.

* `Tables.catalog` : the catalog that the tables hold.
* `Tables.Sound` : no row is unreadable, and no key or number is taken twice.
* `Sound.mapRows`, `Sound.append`, `Sound.add`, `Sound.remove`, `Sound.recordHostProfile` : what the
  statements change.
* `Sound.lists` : what the queries answer.
-/

namespace SwiftLoad

namespace Tables

/-! ### The catalog in the tables -/

/-- The row holds the record. -/
structure Holds (r : DownloadRow) (d : StoredRecord) : Prop where
  read : rowToRecord r = .ok (.ok d)
  count : r.urlRefreshCount = some (d.urlRefreshCount : ℤ)
  status : r.status = d.status.asStr

/-- The record that a row holds, if it can be read. -/
def stored (r : DownloadRow) : Option StoredRecord :=
  match rowToRecord r with
  | .ok (.ok d) => some d
  | _ => none

/-- The catalog that the tables hold. -/
def catalog (db : Tables) : Catalog where
  record id := (db.row? id).bind stored
  chain id := (db.chain id).map HistoryRow.entry
  host host := (db.host? host).bind fun r => r.profile.toOption

/-- The tables hold a catalog, and `n` more calls are not too many for their counts. -/
structure Sound (n : ℕ) (db : Tables) : Prop where
  /-- The id is the primary key. -/
  ids : (db.downloads.map DownloadRow.id).Nodup
  rows : ∀ r ∈ db.downloads, ∃ d, Holds r d ∧ d.urlRefreshCount + n < 2 ^ 63
  numbered : ∀ id, (db.chain id).map HistoryRow.seq = List.range (db.chain id).length
  referring : ∀ e ∈ db.history, (db.row? e.downloadId).isSome
  /-- The host is the primary key. -/
  hosts : (db.hosts.map HostRow.host).Nodup
  samples : ∀ r ∈ db.hosts, ∃ k : ℕ, r.samples = some (k : ℤ) ∧ k + n < 2 ^ 63

section Rows

variable {r : DownloadRow} {d : StoredRecord}

theorem Holds.stored (h : Holds r d) : stored r = some d := by
  unfold Tables.stored
  rw [h.read]

theorem record_of_stored (h : Tables.stored r = some d) :
    ∃ ranges count, d = r.record ranges count := by
  unfold Tables.stored at h
  split at h
  · rename_i d' hread
    obtain ⟨ranges, count, -, -, hd⟩ := rowToRecord_eq_ok.1 hread
    exact ⟨ranges, count, (Option.some.inj h).symm.trans hd.symm⟩
  · simp at h

theorem Holds.eq_record (h : Holds r d) :
    ∃ ranges, RangeSet.decode r.completedRanges = .ok ranges ∧
      d = r.record ranges d.urlRefreshCount := by
  obtain ⟨ranges, count, hdec, hcount, hd⟩ := rowToRecord_eq_ok.1 h.read
  obtain rfl := Option.some.inj (h.count.symm.trans hcount)
  exact ⟨ranges, hdec, hd.symm⟩

theorem Holds.id_eq (h : Holds r d) : d.id = r.id := by
  obtain ⟨ranges, -, hd⟩ := h.eq_record
  rw [hd]
  rfl

theorem succ_eq {k : ℕ} (hlt : k + 1 < 2 ^ 63) :
    SqlCount.succ (some (k : ℤ)) = some ((k + 1 : ℕ) : ℤ) := by
  unfold SqlCount.succ
  rw [Option.bind_some, if_pos (by omega), Nat.cast_succ]

theorem Holds.congr {r' : DownloadRow} {d' : StoredRecord} (h : Holds r d)
    (hblob : r'.completedRanges = r.completedRanges)
    (hcount : r'.urlRefreshCount = some (d'.urlRefreshCount : ℤ))
    (hstatus : r'.status = d'.status.asStr)
    (hd : ∀ ranges, d = r.record ranges d.urlRefreshCount →
      d' = r'.record ranges d'.urlRefreshCount) : Holds r' d' := by
  obtain ⟨ranges, hdec, heq⟩ := h.eq_record
  exact ⟨rowToRecord_eq_ok.2 ⟨ranges, _, hblob ▸ hdec, hcount, (hd ranges heq).symm⟩, hcount,
    hstatus⟩

theorem Holds.checkpointed (h : Holds r d) {ranges : RangeSet} {bytesDone : ℕ}
    (hr : ranges.Storable) (hfit : sqlFits bytesDone = true) :
    Holds (r.checkpointed ranges bytesDone) (d.checkpointed ranges bytesDone) := by
  refine ⟨rowToRecord_eq_ok.2 ⟨ranges, _, decode_blob hr, h.count, ?_⟩, h.count, h.status⟩
  obtain ⟨ranges₀, -, heq⟩ := h.eq_record
  unfold StoredRecord.checkpointed DownloadRow.checkpointed
  conv_rhs => rw [heq]
  simp only [DownloadRow.record, asU64_ofNat (le_u64Max_of_sqlFits hfit), Int.toNat_natCast]

theorem Holds.withStatus (h : Holds r d) (status : DownloadStatus) (error : Option String)
    (now : ℤ) : Holds (r.withStatus status error now) (d.withStatus status error now) := by
  refine h.congr rfl h.count rfl fun ranges heq => ?_
  have htext : status.asStr = "completed" ↔ status = .completed :=
    DownloadStatus.asStr_inj (t := .completed)
  unfold StoredRecord.withStatus DownloadRow.withStatus
  conv_lhs => rw [heq]
  simp only [DownloadRow.record, DownloadStatus.fromDb_asStr, htext]

theorem Holds.cleaned (h : Holds r d) (clean : Bool) :
    Holds (r.cleaned clean) (d.cleaned clean) := by
  refine h.congr rfl h.count h.status fun ranges heq => ?_
  unfold StoredRecord.cleaned
  conv_lhs => rw [heq]
  cases clean <;> rfl

theorem Holds.swapped (h : Holds r d) (newUrl resolved : String) (etag lastModified : Option String)
    {totalSize : Option ℕ} (hfit : totalSize.all sqlFits = true) (acceptRanges : ℤ)
    (validation : ValidationState) (hlt : d.urlRefreshCount + 1 < 2 ^ 63) :
    Holds (r.swapped newUrl resolved etag lastModified totalSize acceptRanges validation)
      (d.swapped newUrl resolved etag lastModified totalSize acceptRanges validation) := by
  have hcount : r.urlRefreshCount.succ = some ((d.urlRefreshCount + 1 : ℕ) : ℤ) := by
    rw [h.count]
    exact succ_eq hlt
  have hsize : (totalSize.map ((↑) : ℕ → ℤ) <|> r.totalSize).map asU64 =
      (totalSize <|> r.totalSize.map asU64) := by
    cases totalSize with
    | none => rfl
    | some n => exact congrArg some (asU64_ofNat (le_u64Max_of_sqlFits hfit))
  refine h.congr rfl hcount rfl fun ranges heq => ?_
  unfold StoredRecord.swapped DownloadRow.swapped
  conv_lhs => rw [heq]
  simp only [DownloadRow.record, ValidationState.fromDb_asStr, hsize, Int.toNat_natCast]
  rfl

theorem holds_toRow (hr : d.completedRanges.Storable) (hfit : d.Fits) : Holds d.toRow d.fresh :=
  ⟨rowToRecord_toRow hr hfit, rfl, rfl⟩

end Rows

variable {db : Tables} {n id : ℕ}

theorem mem_of_row? {r : DownloadRow} (h : db.row? id = some r) : r ∈ db.downloads ∧ r.id = id :=
  ⟨List.mem_of_find?_eq_some h, by simpa using List.find?_some h⟩

theorem row?_eq_none_iff : db.row? id = none ↔ ∀ r ∈ db.downloads, r.id ≠ id := by
  simp [row?]

theorem row?_of_mem (h : (db.downloads.map DownloadRow.id).Nodup) {r : DownloadRow}
    (hr : r ∈ db.downloads) : db.row? r.id = some r := by
  cases hrow : db.row? r.id with
  | none => exact absurd rfl (row?_eq_none_iff.1 hrow r hr)
  | some r' =>
    obtain ⟨hmem, hid⟩ := mem_of_row? hrow
    rw [List.inj_on_of_nodup_map h hmem hr hid]

namespace Sound

theorem row (h : Sound n db) (id : ℕ) :
    db.row? id = none ∧ db.catalog.record id = none ∨
      ∃ r d, db.row? id = some r ∧ db.catalog.record id = some d ∧ Holds r d ∧
        d.urlRefreshCount + n < 2 ^ 63 := by
  cases hrow : db.row? id with
  | none => exact .inl ⟨rfl, by simp [catalog, hrow]⟩
  | some r =>
    obtain ⟨d, hd, hlt⟩ := h.rows r (mem_of_row? hrow).1
    exact .inr ⟨r, d, rfl, by simp [catalog, hrow, hd.stored], hd, hlt⟩

theorem row?_eq_none_iff (h : Sound n db) (id : ℕ) :
    db.row? id = none ↔ db.catalog.record id = none := by
  obtain ⟨hr, hc⟩ | ⟨r, d, hr, hc, -⟩ := h.row id
  · exact iff_of_true hr hc
  · rw [hr, hc]
    simp

theorem mono (h : Sound (n + 1) db) : Sound n db where
  ids := h.ids
  rows r hr := by
    obtain ⟨d, hd, hlt⟩ := h.rows r hr
    exact ⟨d, hd, by omega⟩
  numbered := h.numbered
  referring := h.referring
  hosts := h.hosts
  samples r hr := by
    obtain ⟨k, hk, hlt⟩ := h.samples r hr
    exact ⟨k, hk, by omega⟩

theorem nextSeq (h : Sound n db) (id : ℕ) : db.nextSeq id = (db.chain id).length := by
  unfold Tables.nextSeq
  rw [h.numbered id]
  cases (db.chain id).length with
  | zero => rfl
  | succ k =>
    have hmax : (List.range (k + 1)).max? = some k :=
      List.max?_eq_some_iff.2 ⟨by simp, fun b hb => by simp at hb; omega⟩
    rw [hmax]
    rfl

end Sound

/-! ### What the statements change -/

section Writes

variable {F f : DownloadRow → DownloadRow} {G : ℕ → StoredRecord → StoredRecord}
  {g : StoredRecord → StoredRecord}

/-- The tables with other rows of `downloads`. -/
def mapRows (F : DownloadRow → DownloadRow) (db : Tables) : Tables :=
  { db with downloads := db.downloads.map F }

theorem row?_mapRows (hF : ∀ r, (F r).id = r.id) (id : ℕ) :
    (db.mapRows F).row? id = (db.row? id).map F := by
  unfold row? mapRows
  rw [List.find?_map]
  have hpred : (fun r : DownloadRow => r.id == id) ∘ F = fun r => r.id == id := by
    funext r
    simp only [Function.comp_apply, hF r]
  rw [hpred]

theorem Sound.mapRows (h : Sound (n + 1) db) (hF : ∀ r, (F r).id = r.id)
    (hrow : ∀ r d, Holds r d → d.urlRefreshCount + (n + 1) < 2 ^ 63 → Holds (F r) (G r.id d))
    (hcount : ∀ i d, (G i d).urlRefreshCount ≤ d.urlRefreshCount + 1) :
    Sound n (db.mapRows F) ∧ (db.mapRows F).catalog =
      { db.catalog with record := fun i => (db.catalog.record i).map (G i) } := by
  refine ⟨?_, ?_⟩
  · refine ⟨?_, fun r hr => ?_, h.numbered, fun e he => ?_, h.hosts, h.mono.samples⟩
    · have hids : (db.downloads.map F).map DownloadRow.id = db.downloads.map DownloadRow.id := by
        rw [List.map_map]
        exact List.map_congr_left fun r _ => hF r
      exact hids ▸ h.ids
    · obtain ⟨r₀, hr₀, rfl⟩ := List.mem_map.1 hr
      obtain ⟨d, hd, hlt⟩ := h.rows r₀ hr₀
      have := hcount r₀.id d
      exact ⟨G r₀.id d, hrow r₀ d hd hlt, by omega⟩
    · rw [row?_mapRows hF, Option.isSome_map]
      exact h.referring e he
  · refine Catalog.ext ?_ rfl rfl
    funext i
    show ((db.mapRows F).row? i).bind stored = (db.catalog.record i).map (G i)
    rw [row?_mapRows hF]
    obtain ⟨hr, hc⟩ | ⟨r, d, hr, hc, hd, hlt⟩ := h.row i
    · rw [hr, hc]
      rfl
    · rw [hr, hc, Option.map_some, Option.map_some, Option.bind_some,
        ← (mem_of_row? hr).2, (hrow r d hd hlt).stored]

theorem Sound.update (h : Sound (n + 1) db) (id : ℕ) (hf : ∀ r, (f r).id = r.id)
    (hrow : ∀ r d, Holds r d → d.urlRefreshCount + (n + 1) < 2 ^ 63 → Holds (f r) (g d))
    (hcount : ∀ d, (g d).urlRefreshCount ≤ d.urlRefreshCount + 1) :
    Sound n (db.update id f) ∧ (db.update id f).catalog = db.catalog.modify id g := by
  have hmap := h.mapRows (F := fun r => if r.id = id then f r else r)
    (G := fun i d => if i = id then g d else d)
    (fun r => by split_ifs <;> simp [hf])
    (fun r d hd hlt => by
      split_ifs
      · exact hrow r d hd hlt
      · exact hd)
    (fun i d => by
      split_ifs
      · exact hcount d
      · exact Nat.le_succ _)
  refine ⟨hmap.1, hmap.2.trans (Catalog.ext ?_ rfl rfl)⟩
  funext i
  show (db.catalog.record i).map (fun d => if i = id then g d else d) =
    Function.update db.catalog.record id ((db.catalog.record id).map g) i
  by_cases hi : i = id
  · subst hi
    simp
  · rw [Function.update_of_ne hi]
    simp [hi]

theorem chain_append (e : HistoryRow) (id : ℕ) :
    chain id { db with history := db.history ++ [e] } =
      if e.downloadId = id then db.chain id ++ [e] else db.chain id := by
  unfold chain
  split_ifs with h <;> simp [h]

theorem Sound.append (h : Sound n db) (lib : UrlLib) (hrow : (db.row? id).isSome) (url : String)
    (source : UrlSource) (outcome : String) {bytesAtSwap : ℕ} (hbytes : bytesAtSwap ≤ u64Max)
    (now : ℤ) :
    let db' : Tables := { db with history := db.history ++ [⟨id, db.nextSeq id,
      Redact.redact lib url, Redact.hostOf lib url, source.asStr, outcome, asI64 bytesAtSwap,
      now⟩] }
    Sound n db' ∧
      db'.catalog = db.catalog.append lib id url source outcome bytesAtSwap now := by
  intro db'
  refine ⟨⟨h.ids, h.rows, fun i => ?_, fun e he => ?_, h.hosts, h.samples⟩, ?_⟩
  · rw [chain_append]
    dsimp only
    split_ifs with hi
    · subst hi
      rw [List.map_append, h.numbered, h.nextSeq, List.length_append]
      exact List.range_succ.symm
    · exact h.numbered i
  · rcases List.mem_append.1 he with he | he
    · exact h.referring e he
    · rw [List.mem_singleton.1 he]
      exact hrow
  · refine Catalog.ext rfl ?_ rfl
    funext i
    show (chain i _).map HistoryRow.entry = Function.update db.catalog.chain id _ i
    rw [chain_append]
    by_cases hi : id = i
    · subst hi
      rw [if_pos rfl, Function.update_self, List.map_append, h.nextSeq]
      simp [catalog, HistoryRow.entry, Catalog.entry, asU64_asI64 hbytes]
    · rw [if_neg hi, Function.update_of_ne (Ne.symm hi)]
      rfl

theorem Sound.add (h : Sound (n + 1) db) {d : StoredRecord} (hnone : db.row? d.id = none)
    (hr : d.completedRanges.Storable) (hfit : d.Fits) (hcount : d.urlRefreshCount + n < 2 ^ 63) :
    let db' : Tables := { db with downloads := db.downloads ++ [d.toRow] }
    Sound n db' ∧ (db'.row? d.id).isSome ∧ db'.catalog =
      { db.catalog with record := Function.update db.catalog.record d.id (some d.fresh) } := by
  intro db'
  have hrow : ∀ i, db'.row? i = (db.row? i).or (if d.id = i then some d.toRow else none) := by
    intro i
    show (db.downloads ++ [d.toRow]).find? _ = _
    have hid : d.toRow.id = d.id := rfl
    rw [List.find?_append, List.find?_singleton, hid]
    by_cases hi : d.id = i <;> simp [hi, row?]
  refine ⟨⟨?_, fun r hmem => ?_, h.numbered, fun e he => ?_, h.hosts, h.mono.samples⟩, ?_, ?_⟩
  · show ((db.downloads ++ [d.toRow]).map DownloadRow.id).Nodup
    rw [List.map_append, List.nodup_append]
    refine ⟨h.ids, List.nodup_singleton _, fun i hi j hj heq => ?_⟩
    obtain ⟨r, hmem, rfl⟩ := List.mem_map.1 hi
    rw [List.map_singleton, List.mem_singleton] at hj
    exact Tables.row?_eq_none_iff.1 hnone r hmem (heq.trans hj)
  · rcases List.mem_append.1 hmem with hmem | hmem
    · exact h.mono.rows r hmem
    · rw [List.mem_singleton.1 hmem]
      exact ⟨d.fresh, holds_toRow hr hfit, hcount⟩
  · rw [hrow, Option.isSome_or, h.referring e he, Bool.true_or]
  · rw [hrow, hnone, if_pos rfl]
    rfl
  · refine Catalog.ext ?_ rfl rfl
    funext i
    show (db'.row? i).bind stored = Function.update db.catalog.record d.id (some d.fresh) i
    rw [hrow]
    by_cases hi : i = d.id
    · subst hi
      rw [hnone, if_pos rfl, Function.update_self]
      exact (holds_toRow hr hfit).stored
    · rw [if_neg (Ne.symm hi), Option.or_none, Function.update_of_ne hi]
      rfl

theorem Sound.remove (h : Sound n db) (id : ℕ) :
    let db' : Tables := { db with
      downloads := db.downloads.filter fun r => !(r.id == id)
      history := db.history.filter fun e => !(e.downloadId == id) }
    Sound n db' ∧ db'.catalog = { db.catalog with
      record := Function.update db.catalog.record id none
      chain := Function.update db.catalog.chain id [] } := by
  intro db'
  have hrow : ∀ i, db'.row? i = if i = id then none else db.row? i := by
    intro i
    show (db.downloads.filter _).find? _ = _
    rw [List.find?_filter]
    split_ifs with hi
    · simp [hi]
    · unfold row?
      congr 1
      funext r
      by_cases hr : r.id = i <;> simp [hr, hi]
  have hchain : ∀ i, db'.chain i = if i = id then [] else db.chain i := by
    intro i
    show (db.history.filter _).filter _ = _
    rw [List.filter_filter]
    split_ifs with hi
    · simp [hi]
    · unfold chain
      congr 1
      funext e
      by_cases he : e.downloadId = i <;> simp [he, hi]
  refine ⟨⟨?_, fun r hmem => ?_, fun i => ?_, fun e he => ?_, h.hosts, h.samples⟩, ?_⟩
  · exact h.ids.sublist (List.filter_sublist.map _)
  · exact h.rows r (List.mem_filter.1 hmem).1
  · rw [hchain]
    split_ifs
    · rfl
    · exact h.numbered i
  · obtain ⟨hmem, hne⟩ := List.mem_filter.1 he
    rw [hrow, if_neg (by simpa using hne)]
    exact h.referring e hmem
  · refine Catalog.ext ?_ ?_ rfl
    · funext i
      show (db'.row? i).bind stored = Function.update db.catalog.record id none i
      rw [hrow]
      by_cases hi : i = id
      · rw [if_pos hi, hi, Function.update_self]
        rfl
      · rw [if_neg hi, Function.update_of_ne hi]
        rfl
    · funext i
      show (db'.chain i).map HistoryRow.entry = Function.update db.catalog.chain id [] i
      rw [hchain]
      by_cases hi : i = id
      · rw [if_pos hi, hi, Function.update_self]
        rfl
      · rw [if_neg hi, Function.update_of_ne hi]
        rfl

theorem host?_eq_none_iff {host : String} :
    db.host? host = none ↔ ∀ r ∈ db.hosts, r.host ≠ host := by
  simp [host?]

theorem mem_of_host? {host : String} {r : HostRow} (h : db.host? host = some r) :
    r ∈ db.hosts ∧ r.host = host :=
  ⟨List.mem_of_find?_eq_some h, by simpa using List.find?_some h⟩

theorem host?_map {f : HostRow → HostRow} (hf : ∀ r, (f r).host = r.host) (host : String) :
    host? host { db with hosts := db.hosts.map f } = (db.host? host).map f := by
  unfold host?
  rw [List.find?_map]
  have hpred : (fun r : HostRow => r.host == host) ∘ f = fun r => r.host == host := by
    funext r
    simp only [Function.comp_apply, hf r]
  rw [hpred]

theorem profile_eq {r : HostRow} {k : ℕ} (hk : r.samples = some (k : ℤ)) (hlt : k < 2 ^ 63) :
    r.profile = .ok ⟨r.host, r.bestObservedConns.map asU64, r.bestObservedBps.map asU64,
      decide (r.saturationDetected ≠ 0), k⟩ := by
  have hread : asU64 (k : ℤ) = k := asU64_ofNat (by unfold u64Max; omega)
  unfold HostRow.profile
  rw [hk]
  simp only [hread]

/-- What the row of a host becomes when it is replaced or added. -/
theorem Sound.putHost (h : Sound (n + 1) db) {db' : Tables} {host : String} (row : HostRow)
    {profile : HostProfile} (hdown : db'.downloads = db.downloads)
    (hhist : db'.history = db.history) (hnodup : (db'.hosts.map HostRow.host).Nodup)
    (hmem : ∀ r ∈ db'.hosts, r = row ∨ r ∈ db.hosts)
    (hget : ∀ i, db'.host? i = if i = host then some row else db.host? i)
    (hread : row.profile = .ok profile)
    (hcount : ∃ k : ℕ, row.samples = some (k : ℤ) ∧ k + n < 2 ^ 63) :
    Sound n db' ∧ db'.catalog = { db.catalog with
      host := Function.update db.catalog.host host (some profile) } := by
  obtain ⟨downloads, history, hosts⟩ := db'
  obtain rfl : downloads = db.downloads := hdown
  obtain rfl : history = db.history := hhist
  refine ⟨⟨h.ids, h.mono.rows, h.numbered, h.referring, hnodup, fun r hr => ?_⟩, ?_⟩
  · rcases hmem r hr with rfl | hr
    · exact hcount
    · exact h.mono.samples r hr
  · refine Catalog.ext rfl rfl ?_
    funext i
    show (Tables.host? i _).bind (fun r => r.profile.toOption) =
      Function.update db.catalog.host host (some profile) i
    rw [hget]
    by_cases hi : i = host
    · rw [if_pos hi, hi, Function.update_self, Option.bind_some, hread]
      rfl
    · rw [if_neg hi, Function.update_of_ne hi]
      rfl

theorem Sound.addHost (h : Sound (n + 1) db) (row : HostRow) {profile : HostProfile}
    (hrow : db.host? row.host = none) (hread : row.profile = .ok profile)
    (hcount : ∃ k : ℕ, row.samples = some (k : ℤ) ∧ k + n < 2 ^ 63) :
    Sound n { db with hosts := db.hosts ++ [row] } ∧
      catalog { db with hosts := db.hosts ++ [row] } = { db.catalog with
        host := Function.update db.catalog.host row.host (some profile) } := by
  refine h.putHost row rfl rfl ?_ (fun r hr => ?_) (fun i => ?_) hread hcount
  · rw [List.map_append, List.nodup_append]
    refine ⟨h.hosts, List.nodup_singleton _, fun i hi j hj heq => ?_⟩
    obtain ⟨r, hmem, rfl⟩ := List.mem_map.1 hi
    rw [List.map_singleton, List.mem_singleton] at hj
    exact host?_eq_none_iff.1 hrow r hmem (heq.trans hj)
  · rcases List.mem_append.1 hr with hr | hr
    · exact .inr hr
    · exact .inl (List.mem_singleton.1 hr)
  · unfold host? at hrow ⊢
    rw [List.find?_append, List.find?_singleton]
    by_cases hi : i = row.host
    · subst hi
      simp [hrow]
    · simp [hi, Ne.symm hi]

theorem Sound.updateHost (h : Sound (n + 1) db) {r : HostRow} {g : HostRow → HostRow}
    {profile : HostProfile} (hg : ∀ r', (g r').host = r'.host) (hrow : db.host? r.host = some r)
    (hread : (g r).profile = .ok profile)
    (hcount : ∃ k : ℕ, (g r).samples = some (k : ℤ) ∧ k + n < 2 ^ 63) :
    let db' := { db with hosts := db.hosts.map fun r' => if r'.host = r.host then g r' else r' }
    Sound n db' ∧ db'.catalog = { db.catalog with
      host := Function.update db.catalog.host r.host (some profile) } := by
  have hf : ∀ r' : HostRow, (if r'.host = r.host then g r' else r').host = r'.host := fun r' => by
    split_ifs
    · exact hg r'
    · rfl
  refine h.putHost (g r) rfl rfl ?_ (fun r' hr' => ?_) (fun i => ?_) hread hcount
  · rw [List.map_map]
    exact (List.map_congr_left fun r' _ => hf r') ▸ h.hosts
  · obtain ⟨r₀, hr₀, rfl⟩ := List.mem_map.1 hr'
    by_cases hhost : r₀.host = r.host
    · obtain rfl := List.inj_on_of_nodup_map h.hosts hr₀ (mem_of_host? hrow).1 hhost
      exact .inl (if_pos rfl)
    · exact .inr (by rwa [if_neg hhost])
  · rw [host?_map hf]
    by_cases hi : i = r.host
    · rw [if_pos hi, hi, hrow, Option.map_some, if_pos rfl]
    · rw [if_neg hi]
      cases hother : db.host? i with
      | none => rfl
      | some r₀ => rw [Option.map_some, if_neg ((mem_of_host? hother).2 ▸ hi)]

theorem Sound.recordHostProfile (h : Sound (n + 1) db) (host : String) {bestConns bestBps : ℕ}
    (hconns : bestConns ≤ u64Max) (hbps : bestBps ≤ u64Max) (saturated : Bool) (now : ℤ)
    (hn : n + 1 < 2 ^ 63) :
    let db' := ((Tables.recordHostProfile host bestConns bestBps saturated now).runFrom db).2
    Sound n db' ∧ db'.catalog = { db.catalog with
      host := Function.update db.catalog.host host (some
        { host := host
          bestObservedConns := some bestConns
          bestObservedBps := some bestBps
          saturationDetected := saturated
          samples := (db.catalog.host host).elim 0 HostProfile.samples + 1 }) } := by
  intro db'
  have hsat : (decide ((if saturated then (1 : ℤ) else 0) ≠ 0)) = saturated := by
    cases saturated <;> rfl
  cases hrow : db.host? host with
  | none =>
    have hnone : db.catalog.host host = none := by simp [catalog, hrow]
    have hdb : db' = { db with hosts := db.hosts ++ [⟨host, some (asI64 bestConns),
        some (asI64 bestBps), if saturated then 1 else 0, some 1, now⟩] } := by
      show (if (db.host? host).isSome then _ else _) = _
      rw [hrow]
      rfl
    rw [hdb, hnone]
    refine h.addHost _ hrow ?_ ⟨1, rfl, by omega⟩
    rw [profile_eq (k := 1) rfl (by decide)]
    simp only [Option.map_some, asU64_asI64 hconns, asU64_asI64 hbps, hsat, Option.elim_none,
      Nat.zero_add]
  | some r =>
    obtain ⟨hmem, rfl⟩ := mem_of_host? hrow
    obtain ⟨k, hk, hlt⟩ := h.samples r hmem
    have hsome : db.catalog.host r.host = some ⟨r.host, r.bestObservedConns.map asU64,
        r.bestObservedBps.map asU64, decide (r.saturationDetected ≠ 0), k⟩ := by
      show (db.host? r.host).bind (fun r => r.profile.toOption) = _
      rw [hrow, Option.bind_some, profile_eq hk (by omega)]
      rfl
    let g : HostRow → HostRow := fun r' => { r' with
      bestObservedConns := some (asI64 bestConns)
      bestObservedBps := some (asI64 bestBps)
      saturationDetected := if saturated then 1 else 0
      samples := r'.samples.succ
      updatedAt := now }
    have hdb : db' = { db with
        hosts := db.hosts.map fun r' => if r'.host = r.host then g r' else r' } := by
      show (if (db.host? r.host).isSome then _ else _) = _
      rw [hrow]
      rfl
    have hsucc : (g r).samples = some ((k + 1 : ℕ) : ℤ) := by
      simp only [g, hk]
      exact succ_eq (by omega)
    rw [hdb, hsome]
    refine h.updateHost (g := g) (fun _ => rfl) hrow ?_ ⟨k + 1, hsucc, by omega⟩
    rw [profile_eq hsucc (by omega)]
    simp only [g, Option.map_some, asU64_asI64 hconns, asU64_asI64 hbps, hsat, Option.elim_some]

end Writes

/-! ### What the queries answer -/

section Queries

variable {rows : List DownloadRow}

theorem collect_eq (h : ∀ r ∈ rows, ∃ d, Holds r d) :
    collect rows = .ok (rows.filterMap stored) := by
  have hread : rows.mapM rowToRecord = .ok ((rows.filterMap stored).map .ok) := by
    induction rows with
    | nil => rfl
    | cons r rows ih =>
      obtain ⟨d, hd⟩ := h r List.mem_cons_self
      rw [List.mapM_cons, hd.read, ih fun r' hr' => h r' (List.mem_cons_of_mem _ hr'),
        List.filterMap_cons_some hd.stored]
      rfl
  have hall : ∀ ds : List StoredRecord,
      (ds.map Except.ok).mapM (id : Except TableError StoredRecord → _) = .ok ds := by
    intro ds
    induction ds with
    | nil => rfl
    | cons d ds ih =>
      rw [List.map_cons, List.mapM_cons, ih]
      rfl
  unfold collect
  rw [hread]
  exact hall _

theorem Sound.lists (h : Sound n db) {p : DownloadRow → Bool} {P : StoredRecord → Prop}
    (hp : ∀ r d, Holds r d → (p r = true ↔ P d)) :
    ∃ ds, collect (newestFirst (db.downloads.filter p)) = .ok ds ∧ db.catalog.Lists P ds := by
  have hmem : ∀ r, r ∈ newestFirst (db.downloads.filter p) ↔ r ∈ db.downloads ∧ p r = true := by
    intro r
    rw [newestFirst, List.mem_mergeSort, List.mem_filter]
  have hids : (newestFirst (db.downloads.filter p)).Pairwise fun r r' => r.id ≠ r'.id := by
    have hperm : (newestFirst (db.downloads.filter p)).Perm (db.downloads.filter p) :=
      List.mergeSort_perm _ _
    exact List.pairwise_map.1 (((hperm.map DownloadRow.id).nodup_iff).2
      (h.ids.sublist (List.filter_sublist.map _)))
  have hnewest : (newestFirst (db.downloads.filter p)).Pairwise
      fun r r' => r'.createdAt ≤ r.createdAt := by
    have hsorted : (newestFirst (db.downloads.filter p)).Pairwise
        fun a b => decide (b.createdAt ≤ a.createdAt) = true :=
      List.pairwise_mergeSort (fun a b c hab hbc => by simp at *; omega)
        (fun a b => by simp; omega) _
    exact hsorted.imp fun h => of_decide_eq_true h
  refine ⟨_, collect_eq fun r hr => ?_, ?_, fun d => ?_, ?_⟩
  · obtain ⟨d, hd, -⟩ := h.rows r ((hmem r).1 hr).1
    exact ⟨d, hd⟩
  · refine List.pairwise_filterMap.2 (hids.imp fun hne d hd d' hd' heq => hne ?_)
    obtain ⟨_, _, rfl⟩ := record_of_stored hd
    obtain ⟨_, _, rfl⟩ := record_of_stored hd'
    exact congrArg (fun d : StoredRecord => d.id) heq
  · rw [List.mem_filterMap]
    constructor
    · rintro ⟨r, hr, hd⟩
      obtain ⟨hrow, hpr⟩ := (hmem r).1 hr
      obtain ⟨d', hd', -⟩ := h.rows r hrow
      obtain rfl := Option.some.inj (hd'.stored.symm.trans hd)
      refine ⟨?_, (hp r d' hd').1 hpr⟩
      show (db.row? d'.id).bind stored = some d'
      rw [hd'.id_eq, row?_of_mem h.ids hrow]
      exact hd
    · rintro ⟨hd, hP⟩
      obtain ⟨-, hc⟩ | ⟨r, d', hr, hc, hd', -⟩ := h.row d.id
      · rw [hc] at hd
        simp at hd
      · obtain rfl := Option.some.inj (hc.symm.trans hd)
        exact ⟨r, (hmem r).2 ⟨(mem_of_row? hr).1, (hp r d' hd').2 hP⟩, hd'.stored⟩
  · refine List.pairwise_filterMap.2 (hnewest.imp fun hle d hd d' hd' => ?_)
    obtain ⟨_, _, rfl⟩ := record_of_stored hd
    obtain ⟨_, _, rfl⟩ := record_of_stored hd'
    exact hle

end Queries

end Tables

end SwiftLoad
