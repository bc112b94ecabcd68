import SwiftLoad.Machine.TwoRuns
import SwiftLoad.Store.Basic
import SwiftLoad.Util.Redact

/-!
# The URL history

The columns of `downloads` that a fetch needs, the table `url_history`, and the operations of
`store/mod.rs` that write to them.  The full URL stands in three columns of the download; the
history keeps it redacted, because a signed URL is a bearer credential.

* `Database.run` : a sequence of operations; one that fails leaves what its statements before the
  failing one have done.
* `history_independent` : **two sequences that differ only in the secrets of their URLs leave the
  same history.**
-/

namespace SwiftLoad

/-- `ValidationState`. -/
inductive ValidationState
  | notRequired
  | autoVerified
  | contentVerified
  | userConfirmed
  | rejected
deriving DecidableEq, Repr

/-- Where a URL came from. -/
inductive UrlSource
  | user
  | browserExtension
  | autoReresolve
deriving DecidableEq, Repr

/-- `UrlSource::as_str`. -/
def UrlSource.asStr : UrlSource → String
  | user => "user"
  | browserExtension => "browser_extension"
  | autoReresolve => "auto_reresolve"

/-- A `DownloadRecord` with its URLs and what the last probe of them learned. -/
structure LinkedRecord extends DownloadRecord where
  /-- The first URL the user gave.  Never overwritten. -/
  originalUrl : String
  /-- The URL actively fetched from.  Replaced by a refresh. -/
  currentUrl : String
  /-- `current_url` after redirects. -/
  finalUrl : String
  urlRefreshCount : ℕ := 0
  acceptRanges : ℤ := 0
  etag : Option String := none
  lastModified : Option String := none
  contentType : Option String := none
  validationState : ValidationState := .notRequired
  errorMessage : Option String := none
deriving DecidableEq

/-- A row of `url_history`, but for its time. -/
structure UrlHistoryEntry where
  downloadId : ℕ
  seq : ℕ
  /-- Always redacted. -/
  urlRedacted : String
  host : String
  source : String
  outcome : String
  bytesDoneAtSwap : ℕ
deriving DecidableEq, Repr

/-- The two tables. -/
structure Database where
  downloads : List LinkedRecord
  history : List UrlHistoryEntry
deriving DecidableEq

/-- `StoreError`, but for the text of a database error. -/
inductive StoreError
  /-- A statement that fails: a constraint, or no row where one is expected. -/
  | sql
  | notFound (id : ℕ)
deriving DecidableEq, Repr

/-- A column holds an `i64`. -/
def sqlFits (n : ℕ) : Bool := decide (n < 2 ^ 63)

namespace Database

/-- The row with this id. -/
def row? (id : ℕ) (db : Database) : Option LinkedRecord := db.downloads.find? fun r => r.id == id

/-- An `UPDATE` of the row with this id. -/
def update (id : ℕ) (f : LinkedRecord → LinkedRecord) (db : Database) : Database :=
  { db with downloads := db.downloads.map fun r => if r.id = id then f r else r }

/-- `COALESCE(MAX(seq) + 1, 0)`. -/
def nextSeq (id : ℕ) (db : Database) : ℕ :=
  (((db.history.filter fun e => e.downloadId == id).map UrlHistoryEntry.seq).max?).elim 0 (· + 1)

variable (lib : UrlLib)

/-- `push_url_history`: append to the redacted URL chain.  The row refers to its download. -/
def pushUrlHistory (id : ℕ) (url : String) (source : UrlSource) (outcome : String)
    (bytesAtSwap : ℕ) : Program Database StoreError Unit := do
  let db ← get
  if db.row? id = none then throw .sql
  else
    modify fun db => { db with history := db.history ++ [{
      downloadId := id
      seq := db.nextSeq id
      urlRedacted := Redact.redact lib url
      host := Redact.hostOf lib url
      source := source.asStr
      outcome := outcome
      bytesDoneAtSwap := bytesAtSwap }] }

/-- `Store::insert`.  The error message and the clean flag are not taken from the record. -/
def insert (d : LinkedRecord) : Program Database StoreError Unit := do
  let db ← get
  if (db.row? d.id).isSome ∨
      ¬(sqlFits d.bytesDone ∧ d.totalSize.all sqlFits ∧ d.maxConnections.all sqlFits ∧
        sqlFits d.urlRefreshCount) then throw .sql
  else
    modify fun db => { db with downloads :=
      db.downloads ++ [{ d with cleanShutdown := false, errorMessage := none }] }
    pushUrlHistory lib d.id d.originalUrl .user "initial" 0

/-- `Store::checkpoint`. -/
def checkpoint (id : ℕ) (ranges : RangeSet) (bytesDone : ℕ) :
    Program Database StoreError Unit := do
  let db ← get
  if ¬sqlFits bytesDone then throw .sql
  else if db.row? id = none then throw (.notFound id)
  else modify (update id fun r => { r with completedRanges := ranges, bytesDone := bytesDone })

/-- `Store::swap_url`: replace the URL a download fetches from, keeping every byte of its state. -/
def swapUrl (id : ℕ) (newUrl resolved : String) (etag lastModified : Option String)
    (totalSize : Option ℕ) (acceptRanges : ℤ) (validation : ValidationState) (outcome : String) :
    Program Database StoreError Unit := do
  let db ← get
  match db.row? id with
  | none => throw .sql
  | some r =>
    if ¬totalSize.all sqlFits then throw .sql
    else
      modify (update id fun r => { r with
        currentUrl := newUrl
        finalUrl := resolved
        urlRefreshCount := r.urlRefreshCount + 1
        etag := etag
        lastModified := lastModified
        totalSize := totalSize <|> r.totalSize
        acceptRanges := acceptRanges
        validationState := validation
        status := .queued
        errorMessage := none })
      pushUrlHistory lib id newUrl .user outcome r.bytesDone

/-- An operation that writes URLs, or what a history row takes from the download. -/
inductive Op where
  | insert (d : LinkedRecord)
  | checkpoint (id : ℕ) (ranges : RangeSet) (bytesDone : ℕ)
  | swapUrl (id : ℕ) (newUrl resolved : String) (etag lastModified : Option String)
      (totalSize : Option ℕ) (acceptRanges : ℤ) (validation : ValidationState) (outcome : String)
  | pushUrlHistory (id : ℕ) (url : String) (source : UrlSource) (outcome : String)
      (bytesAtSwap : ℕ)

/-- The operation as a program. -/
def Op.exec : Op → Program Database StoreError Unit
  | insert d => Database.insert lib d
  | checkpoint id ranges bytesDone => Database.checkpoint id ranges bytesDone
  | swapUrl id newUrl resolved etag lastModified totalSize acceptRanges validation outcome =>
    Database.swapUrl lib id newUrl resolved etag lastModified totalSize acceptRanges validation
      outcome
  | pushUrlHistory id url source outcome bytesAtSwap =>
    Database.pushUrlHistory lib id url source outcome bytesAtSwap

/-- The tables after a sequence of operations. -/
def run (ops : List Op) (db : Database) : Database :=
  ops.foldl (fun db op => ((op.exec lib).runFrom db).2) db

/-- Empty tables. -/
def empty : Database := ⟨[], []⟩

/-! ### Two sequences -/

/-- Two operations that differ at most in the secrets of the URLs they are given. -/
inductive Op.Alike : Op → Op → Prop
  | insert (d : LinkedRecord) {u u' c c' f f' : String} (hu : lib.SameUrl u u')
      (hc : lib.SameUrl c c') (hf : lib.SameUrl f f') :
      Alike (.insert { d with originalUrl := u, currentUrl := c, finalUrl := f })
        (.insert { d with originalUrl := u', currentUrl := c', finalUrl := f' })
  | checkpoint (id : ℕ) (ranges : RangeSet) (bytesDone : ℕ) :
      Alike (.checkpoint id ranges bytesDone) (.checkpoint id ranges bytesDone)
  | swapUrl (id : ℕ) {u u' f f' : String} (etag lastModified : Option String)
      (totalSize : Option ℕ) (acceptRanges : ℤ) (validation : ValidationState) (outcome : String)
      (hu : lib.SameUrl u u') (hf : lib.SameUrl f f') :
      Alike (.swapUrl id u f etag lastModified totalSize acceptRanges validation outcome)
        (.swapUrl id u' f' etag lastModified totalSize acceptRanges validation outcome)
  | pushUrlHistory (id : ℕ) {u u' : String} (source : UrlSource) (outcome : String)
      (bytesAtSwap : ℕ) (hu : lib.SameUrl u u') :
      Alike (.pushUrlHistory id u source outcome bytesAtSwap)
        (.pushUrlHistory id u' source outcome bytesAtSwap)

/-- What the history takes from a download. -/
def key (r : LinkedRecord) : ℕ × ℕ := (r.id, r.bytesDone)

/-- The same history, and downloads that agree on what it takes from them. -/
structure SameHistory (db db' : Database) : Prop where
  history : db.history = db'.history
  keys : db.downloads.map key = db'.downloads.map key

variable {lib} {db db' : Database} {id : ℕ}

theorem row?_key (id : ℕ) (db : Database) :
    (db.row? id).map key = (db.downloads.map key).find? fun k => k.1 == id := by
  rw [List.find?_map]
  rfl

theorem SameHistory.row? (h : SameHistory db db') (id : ℕ) :
    (db.row? id).map key = (db'.row? id).map key := by
  rw [row?_key, row?_key, h.keys]

theorem SameHistory.row?_eq_none (h : SameHistory db db') (id : ℕ) :
    db.row? id = none ↔ db'.row? id = none := by
  rw [← Option.map_eq_none_iff (f := key), h.row? id, Option.map_eq_none_iff]

/-- An update that treats what the history takes alike. -/
theorem SameHistory.update (h : SameHistory db db') {f f' : LinkedRecord → LinkedRecord}
    {g : ℕ × ℕ → ℕ × ℕ} (hf : ∀ r, key (f r) = g (key r)) (hf' : ∀ r, key (f' r) = g (key r)) :
    SameHistory (db.update id f) (db'.update id f') := by
  have hmap : ∀ (l : List LinkedRecord) (f : LinkedRecord → LinkedRecord),
      (∀ r, key (f r) = g (key r)) → (l.map fun r => if r.id = id then f r else r).map key =
        (l.map key).map fun k => if k.1 = id then g k else k := by
    intro l f hf
    rw [List.map_map, List.map_map]
    refine List.map_congr_left fun r _ => ?_
    change key (if r.id = id then f r else r) = if (key r).1 = id then g (key r) else key r
    split_ifs with h₁ h₂ h₂
    · exact hf r
    · exact absurd h₁ h₂
    · exact absurd h₂ h₁
    · rfl
  exact ⟨h.history, by
    rw [Database.update, Database.update, hmap _ f hf, hmap _ f' hf', h.keys]⟩

theorem pushUrlHistory_alike (hlib : lib.UserinfoClearable) (id : ℕ) {u u' : String}
    (hu : lib.SameUrl u u') (source : UrlSource) (outcome : String) (bytesAtSwap : ℕ) :
    Program.Alike SameHistory Eq Eq (pushUrlHistory lib id u source outcome bytesAtSwap)
      (pushUrlHistory lib id u' source outcome bytesAtSwap) := by
  unfold pushUrlHistory
  refine Program.Alike.get_bind fun db db' h => Program.Alike.ite (h.row?_eq_none id)
    (fun _ => Program.Alike.throw rfl) fun _ => Program.Alike.modify rfl ?_
  intro s s' hs
  have hseq : s.nextSeq id = s'.nextSeq id := by rw [nextSeq, nextSeq, hs.history]
  refine ⟨?_, hs.keys⟩
  simp only [hs.history, hseq, Redact.redact_congr hlib hu, Redact.hostOf_congr hu]

/-- One operation. -/
theorem exec_alike (hlib : lib.UserinfoClearable) {op op' : Op} (h : Op.Alike lib op op') :
    Program.Alike SameHistory Eq Eq (op.exec lib) (op'.exec lib) := by
  cases h with
  | insert d hu hc hf =>
    simp only [Op.exec, insert]
    refine Program.Alike.get_bind fun db db' h => Program.Alike.ite ?_
      (fun _ => Program.Alike.throw rfl) fun _ => ?_
    · have hrow := h.row?_eq_none d.id
      rw [← not_iff_not, ← ne_eq, ← ne_eq, Option.ne_none_iff_isSome,
        Option.ne_none_iff_isSome] at hrow
      rw [hrow]
    · refine Program.Alike.bind (Q := Eq) (Program.Alike.modify rfl fun s s' hs => ?_)
        fun _ _ _ => pushUrlHistory_alike hlib _ hu _ _ _
      exact ⟨hs.history, by simp only [List.map_append, hs.keys, List.map_cons, List.map_nil, key]⟩
  | checkpoint id ranges bytesDone =>
    simp only [Op.exec, checkpoint]
    refine Program.Alike.get_bind fun db db' h => Program.Alike.ite Iff.rfl
      (fun _ => Program.Alike.throw rfl) fun _ => Program.Alike.ite (h.row?_eq_none id)
        (fun _ => Program.Alike.throw rfl) fun _ => Program.Alike.modify rfl fun s s' hs => ?_
    exact hs.update (g := fun k => (k.1, bytesDone)) (fun _ => rfl) fun _ => rfl
  | swapUrl id etag lastModified totalSize acceptRanges validation outcome hu hf =>
    simp only [Op.exec, swapUrl]
    refine Program.Alike.get_bind fun db db' h => ?_
    have hrow := h.row? id
    cases hr : db.row? id with
    | none =>
      rw [(h.row?_eq_none id).1 hr]
      exact Program.Alike.throw rfl
    | some r =>
      cases hr' : db'.row? id with
      | none => rw [hr, hr'] at hrow; cases hrow
      | some r' =>
        rw [hr, hr'] at hrow
        have hbytes : r.bytesDone = r'.bytesDone := congrArg Prod.snd (Option.some.inj hrow)
        dsimp only
        rw [hbytes]
        refine Program.Alike.ite Iff.rfl (fun _ => Program.Alike.throw rfl) fun _ => ?_
        refine Program.Alike.bind (Q := Eq) (Program.Alike.modify rfl fun s s' hs => ?_)
          fun _ _ _ => pushUrlHistory_alike hlib _ hu _ _ _
        exact hs.update (g := fun k => k) (fun _ => rfl) fun _ => rfl
  | pushUrlHistory id source outcome bytesAtSwap hu =>
    exact pushUrlHistory_alike hlib id hu source outcome bytesAtSwap

/-- A sequence of operations. -/
theorem run_alike (hlib : lib.UserinfoClearable) {ops ops' : List Op}
    (h : List.Forall₂ (Op.Alike lib) ops ops') (hdb : SameHistory db db') :
    SameHistory (run lib ops db) (run lib ops' db') := by
  induction h generalizing db db' with
  | nil => exact hdb
  | cons hop _ ih => exact ih (exec_alike hlib hop db db' hdb).2

/-- **The history does not depend on secrets.**  Two sequences of operations that differ only in
the values of query parameters, the userinfo and the fragments of their URLs leave the same rows;
of a text that is no URL only the length counts. -/
theorem history_independent (hlib : lib.UserinfoClearable) {ops ops' : List Op}
    (h : List.Forall₂ (Op.Alike lib) ops ops') (db : Database) :
    (run lib ops db).history = (run lib ops' db).history :=
  (run_alike hlib h ⟨rfl, rfl⟩).history

/-- A URL with a token. -/
def tokenUrl (query : String) : Url :=
  { scheme := "https", host := some "ex.com", path := "/f.zip", query := some query }

/-- A library that knows a URL with three tokens. -/
def tokenLib : UrlLib := .ofTable
  [("https://ex.com/f.zip?token=one", .ok (tokenUrl "token=one")),
    ("https://ex.com/f.zip?token=two", .ok (tokenUrl "token=two")),
    ("https://ex.com/f.zip?token=%3Credacted%3E", .ok (tokenUrl "token=%3Credacted%3E"))]
  [("token=one", [("token", "one")]), ("token=two", [("token", "two")]),
    ("token=%3Credacted%3E", [("token", "<redacted>")])]

theorem tokenLib_clearable : tokenLib.UserinfoClearable := by
  refine UrlLib.ofTable_clearable fun p hp u hu => ?_
  rcases List.mem_cons.1 hp with rfl | hp
  · cases hu; exact ⟨rfl, rfl⟩
  rcases List.mem_cons.1 hp with rfl | hp
  · cases hu; exact ⟨rfl, rfl⟩
  · cases List.mem_singleton.1 hp
    cases hu
    exact ⟨rfl, rfl⟩

/-- Adding a URL and refreshing the download with it. -/
def tokenOps (url : String) : List Op :=
  [.insert {
      id := 0, filename := ['f'], destDir := [], originalUrl := url, currentUrl := url
      finalUrl := url },
    .swapUrl 0 url url none none none 1 .autoVerified "accepted_auto"]

theorem tokenUrl_sameUrl :
    tokenLib.SameUrl "https://ex.com/f.zip?token=one" "https://ex.com/f.zip?token=two" :=
  ⟨rfl, rfl, rfl, rfl, rfl, rfl⟩

theorem history_independent_token :
    (run tokenLib (tokenOps "https://ex.com/f.zip?token=one") empty).history =
      (run tokenLib (tokenOps "https://ex.com/f.zip?token=two") empty).history :=
  history_independent tokenLib_clearable
    (.cons (.insert {
        id := 0, filename := ['f'], destDir := [], originalUrl := "", currentUrl := ""
        finalUrl := "" } tokenUrl_sameUrl tokenUrl_sameUrl tokenUrl_sameUrl)
      (.cons (.swapUrl 0 none none none 1 .autoVerified "accepted_auto" tokenUrl_sameUrl
        tokenUrl_sameUrl) .nil)) empty

end Database

end SwiftLoad
