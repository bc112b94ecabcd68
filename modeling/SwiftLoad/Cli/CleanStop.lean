import SwiftLoad.Cli.Commands
import SwiftLoad.Cli.Refresh
import SwiftLoad.Store.Bookkeeping

/-!
# Clean stops and crashes

The commands of `Cli/Commands.lean` and `refresh-url` over one database, with what a user knows
beside it: the set that was last checkpointed for a download, and whether its last run ended
normally.  The flag in the record is meant to say the latter, and the set a resume starts from is
meant to follow it (`CleanState.due`).

* `CleanState.Agrees` : the invariant: a record holds the set that was last checkpointed.
* `cmdRefresh_refreshed` : `refresh-url` does to the rows what `CliState.refresh` does.
* `resume_due_iff` : **a resume starts from the set that is due exactly when the last run crashed
  or nothing was checkpointed**: every command clears the flags before anything reads them.
-/

namespace SwiftLoad

/-- The row after `swap_url`. -/
def DownloadRecord.swapUrl (totalSize : Option ℕ) (r : DownloadRecord) : DownloadRecord :=
  { r with totalSize := totalSize <|> r.totalSize, status := .queued }

/-- The record that `cmd_refresh` hands to `run`: with the new URL, from `resume_state`. -/
def DownloadRecord.refreshed (totalSize : Option ℕ) (r : DownloadRecord) : DownloadRecord :=
  { r.swapUrl totalSize with
    completedRanges := (r.resumeState ({} : Settings).paranoidRecovery).1 }

section Commands

variable {κ : Type} [DecidableEq κ] (locate : List Name → Path → κ)

/-- `cmd_refresh` up to `run`, when the new URL is accepted. -/
def CliState.refresh (id : ℕ) (totalSize : Option ℕ) (here : List Name) (s : CliState κ) :
    Option (CliState κ) :=
  if s.process.isSome then none
  else (s.store.clearCleanFlags.get id).map fun r =>
    { s with
      store := s.store.clearCleanFlags.update id (DownloadRecord.swapUrl totalSize)
      process := some ⟨r.refreshed totalSize, .begun, here⟩ }

/-- What can happen, with `refresh-url`. -/
inductive CleanEvent where
  | cli (e : CliEvent)
  /-- A `refresh-url` whose new URL is accepted, the size it found, and its directory. -/
  | refresh (id : ℕ) (totalSize : Option ℕ) (here : List Name)

/-- One step of a command. -/
def CliState.perform (s : CliState κ) : CleanEvent → Option (CliState κ)
  | .cli e => s.step locate e
  | .refresh id totalSize here => s.refresh id totalSize here

/-- The state of the commands, and what is known about every download. -/
structure CleanState (κ : Type) where
  cli : CliState κ
  /-- The set that was last checkpointed. -/
  checkpointed : ℕ → RangeSet
  /-- The last run ended normally. -/
  ended : ℕ → Bool

namespace CleanState

/-- A run of the download begins. -/
def begin (id : ℕ) (s : CleanState κ) : CleanState κ :=
  { s with ended := Function.update s.ended id false }

/-- What is known after an event. -/
def note (s : CleanState κ) : CleanEvent → CleanState κ
  | .cli (.get g) => { s.begin g.id with
      checkpointed := Function.update s.checkpointed g.id .new }
  | .cli (.resume _ id _) => s.begin id
  | .refresh id _ _ => s.begin id
  | .cli (.checkpoint ranges _) => match s.cli.process with
    | some p => { s with checkpointed := Function.update s.checkpointed p.record.id ranges }
    | none => s
  | .cli .markClean => match s.cli.process with
    | some p => { s with ended := Function.update s.ended p.record.id true }
    | none => s
  | .cli _ => s

/-- One step of a command, which does not read what is known, and what is known then. -/
def step (s : CleanState κ) (e : CleanEvent) : Option (CleanState κ) :=
  (s.cli.perform locate e).map fun cli => { s.note e with cli := cli }

/-- The set that a resume is meant to start from: all that was checkpointed after a clean stop,
and without the end of every span after a crash. -/
def due (s : CleanState κ) (id : ℕ) : RangeSet :=
  if s.ended id then s.checkpointed id else (s.checkpointed id).rewindTails paranoidRewind

/-- An empty database. -/
def start (files : κ → Option File) : CleanState κ :=
  ⟨⟨.empty, files, none⟩, fun _ => .new, fun _ => false⟩

end CleanState

/-- The commands and what is known as an event machine. -/
def cleanMachine : Machine (CleanState κ) CleanEvent := ⟨CleanState.step locate⟩

end Commands

/-! ### What a step does to the rows -/

/-- The same download, in the same place. -/
def DownloadRecord.Place (r r' : DownloadRecord) : Prop :=
  r.id = r'.id ∧ r.filename = r'.filename ∧ r.destDir = r'.destDir

theorem DownloadRecord.Place.same (r : DownloadRecord) : r.Place r := ⟨rfl, rfl, rfl⟩

theorem DownloadRecord.Place.trans {r₁ r₂ r₃ : DownloadRecord} (h : r₁.Place r₂)
    (h' : r₂.Place r₃) : r₁.Place r₃ :=
  ⟨h.1.trans h'.1, h.2.1.trans h'.2.1, h.2.2.trans h'.2.2⟩

/-- The set that the row holds after an event. -/
def CleanEvent.rangesOf {κ : Type} (s : CliState κ) (e : CleanEvent) (r : DownloadRecord) :
    RangeSet :=
  match e, s.process with
  | .cli (.checkpoint ranges _), some p => if r.id = p.record.id then ranges else r.completedRanges
  | _, _ => r.completedRanges

section Rows

variable {κ : Type} [DecidableEq κ] {locate : List Name → Path → κ} {s s' : CliState κ}
  {e : CleanEvent} {store : Store} {r' : DownloadRecord}

theorem Store.exists_of_update {id : ℕ} {f : DownloadRecord → DownloadRecord}
    (hr : r' ∈ (store.update id f).downloads)
    (hf : ∀ r, (f r).Place r ∧ (f r).completedRanges = r.completedRanges) :
    ∃ r ∈ store.downloads, r'.Place r ∧ r'.completedRanges = r.completedRanges := by
  obtain ⟨r, hmem, rfl⟩ := Store.mem_update.1 hr
  refine ⟨r, hmem, ?_⟩
  split_ifs
  · exact hf r
  · exact ⟨.same r, rfl⟩

theorem Store.exists_of_clear (hr : r' ∈ store.clearCleanFlags.downloads) :
    ∃ r ∈ store.downloads, r'.Place r ∧ r'.completedRanges = r.completedRanges := by
  obtain ⟨r, hmem, rfl⟩ := Store.mem_clearCleanFlags.1 hr
  exact ⟨r, hmem, ⟨rfl, rfl, rfl⟩, rfl⟩

/-- A row was there before, in the same place and with the set of the event, or it comes from a
`get` and has no set. -/
theorem CliState.rows_perform (h : s.perform locate e = some s')
    (hr : r' ∈ s'.store.downloads) :
    (∃ r ∈ s.store.downloads, r'.Place r ∧ r'.completedRanges = e.rangesOf s r) ∨
      ∃ g, e = .cli (.get g) ∧ r'.Place g.record ∧ r'.completedRanges = .new := by
  cases e with
  | refresh id totalSize here =>
    simp only [perform, refresh] at h
    split_ifs at h
    obtain ⟨r, -, rfl⟩ := Option.map_eq_some_iff.1 h
    obtain ⟨r₁, hr₁, hp, hc⟩ := Store.exists_of_update hr fun _ => ⟨⟨rfl, rfl, rfl⟩, by rfl⟩
    obtain ⟨r₂, hr₂, hp', hc'⟩ := Store.exists_of_clear hr₁
    exact .inl ⟨r₂, hr₂, hp.trans hp', hc.trans hc'⟩
  | cli e =>
    cases stepped h with
    | opens => exact .inl (Store.exists_of_clear hr)
    | gets g store hidle hins =>
      obtain ⟨-, rfl⟩ := Store.insert_eq_some_iff.1 hins
      rcases List.mem_append.1 hr with hr | hr
      · exact .inl (Store.exists_of_clear hr)
      · obtain rfl := List.mem_singleton.1 hr
        exact .inr ⟨g, rfl, ⟨rfl, rfl, rfl⟩, rfl⟩
    | resumes => exact .inl (Store.exists_of_clear hr)
    | touches e r here file he =>
      refine .inl ⟨r', hr, .same r', ?_⟩
      rcases he with ⟨total, rfl⟩ | ⟨offset, bytes, rfl⟩ <;> rfl
    | publishes => exact .inl ⟨r', hr, .same r', rfl⟩
    | checkpoints ranges bytesDone r₀ here hp =>
      obtain ⟨r, hmem, rfl⟩ := Store.mem_update.1 hr
      refine .inl ⟨r, hmem, ?_⟩
      simp only [CleanEvent.rangesOf, hp]
      split_ifs
      · exact ⟨⟨rfl, rfl, rfl⟩, rfl⟩
      · exact ⟨.same r, rfl⟩
    | activates => exact .inl (Store.exists_of_update hr fun _ => ⟨⟨rfl, rfl, rfl⟩, by rfl⟩)
    | settles => exact .inl (Store.exists_of_update hr fun _ => ⟨⟨rfl, rfl, rfl⟩, by rfl⟩)
    | marksClean => exact .inl (Store.exists_of_update hr fun _ => ⟨⟨rfl, rfl, rfl⟩, by rfl⟩)
    | dies => exact .inl ⟨r', hr, .same r', rfl⟩

/-- A command works on the record it worked on before, or on a row. -/
theorem CliState.process_perform (h : s.perform locate e = some s') {p' : CliProcess}
    (hp : s'.process = some p') :
    (∃ p, s.process = some p ∧ p'.record = p.record) ∨
      ∃ r' ∈ s'.store.downloads, p'.record.Place r' := by
  cases e with
  | refresh id totalSize here =>
    simp only [perform, refresh] at h
    split_ifs at h
    obtain ⟨r, hget, rfl⟩ := Option.map_eq_some_iff.1 h
    obtain rfl := Option.some.inj hp
    obtain ⟨hmem, hid⟩ := Store.mem_of_get hget
    exact .inr ⟨_, Store.mem_update.2 ⟨r, hmem, rfl⟩, by rw [if_pos hid]; exact ⟨rfl, rfl, rfl⟩⟩
  | cli e =>
    cases stepped h with
    | gets g store hidle hins =>
      obtain rfl := Option.some.inj hp
      obtain ⟨-, rfl⟩ := Store.insert_eq_some_iff.1 hins
      exact .inr ⟨_, List.mem_append_right _ List.mem_cons_self, rfl, rfl, rfl⟩
    | resumes settings id here r hidle hget =>
      obtain rfl := Option.some.inj hp
      exact .inr ⟨r, (Store.mem_of_get hget).1, rfl, rfl, rfl⟩
    | activates r here hproc =>
      obtain rfl := Option.some.inj hp
      exact .inl ⟨_, hproc, rfl⟩
    | settles outcome r here hproc =>
      obtain rfl := Option.some.inj hp
      exact .inl ⟨_, hproc, rfl⟩
    | opens => exact .inl ⟨p', hp, rfl⟩
    | touches => exact .inl ⟨p', hp, rfl⟩
    | publishes => exact .inl ⟨p', hp, rfl⟩
    | checkpoints => exact .inl ⟨p', hp, rfl⟩
    | marksClean => cases hp
    | dies => cases hp

theorem CliState.perform_get {g : GetCmd} (h : s.perform locate (.cli (.get g)) = some s') :
    s.process = none ∧ ∀ r ∈ s.store.downloads, r.id ≠ g.id := by
  simp only [perform] at h
  cases stepped h with
  | gets g store hidle hins =>
    obtain ⟨hnew, -⟩ := Store.insert_eq_some_iff.1 hins
    exact ⟨hidle, fun r hr =>
      hnew (r.markClean false) (Store.mem_clearCleanFlags.2 ⟨r, hr, rfl⟩)⟩
  | touches e r here file he => simp at he

end Rows

/-! ### A record holds what was checkpointed -/

namespace CleanState

variable {κ : Type} {s s' : CleanState κ} {e : CleanEvent}

/-- Every record holds the set that was last checkpointed for it. -/
def Agrees (s : CleanState κ) : Prop :=
  ∀ r ∈ s.cli.store.downloads, r.completedRanges = s.checkpointed r.id

/-- What is known of a row that was there before. -/
theorem checkpointed_note {r : DownloadRecord} (h : r.completedRanges = s.checkpointed r.id)
    (hnew : ∀ g, e = .cli (.get g) → r.id ≠ g.id) :
    e.rangesOf s.cli r = (s.note e).checkpointed r.id := by
  cases e with
  | refresh id totalSize here => exact h
  | cli e =>
    cases e with
    | get g => exact h.trans (Function.update_of_ne (hnew g rfl) _ _).symm
    | checkpoint ranges bytesDone =>
      simp only [CleanEvent.rangesOf, note]
      cases s.cli.process with
      | none => exact h
      | some p =>
        dsimp only
        split_ifs with hid
        · rw [hid, Function.update_self]
        · rw [Function.update_of_ne hid, h]
    | markClean =>
      simp only [CleanEvent.rangesOf, note]
      cases s.cli.process <;> exact h
    | _ => exact h

theorem Agrees.step [DecidableEq κ] {locate : List Name → Path → κ} (h : s.Agrees)
    (hs : s.step locate e = some s') : s'.Agrees := by
  obtain ⟨cli, hcli, rfl⟩ := Option.map_eq_some_iff.1 hs
  intro r' hr'
  rcases CliState.rows_perform hcli hr' with ⟨r, hr, hplace, hranges⟩ | ⟨g, rfl, hplace, hranges⟩
  · change r'.completedRanges = (s.note e).checkpointed r'.id
    rw [hranges, hplace.1]
    refine checkpointed_note (h r hr) ?_
    rintro g rfl
    exact (CliState.perform_get hcli).2 r hr
  · change r'.completedRanges = Function.update s.checkpointed g.id .new r'.id
    rw [hranges, show r'.id = g.id from hplace.1, Function.update_self]

end CleanState

section Resume

variable {κ : Type} [DecidableEq κ] {locate : List Name → Path → κ} {files : κ → Option File}
  {s s' : CleanState κ} {id : ℕ} {here : List Name}

theorem resume_starts (h : (cleanMachine locate).Reaches (CleanState.start files) s)
    (hs : (cleanMachine locate).step s (.cli (.resume {} id here)) = some s') :
    ∃ r, s'.cli.process = some ⟨r, .begun, here⟩ ∧ r.id = id ∧
      r.completedRanges = (s.checkpointed id).rewindTails paranoidRewind := by
  have hagrees : s.Agrees :=
    h.invariant (fun r hr => absurd hr List.not_mem_nil) fun _ _ _ ih _ hst => ih.step hst
  obtain ⟨cli, hcli, rfl⟩ := Option.map_eq_some_iff.1 hs
  simp only [CliState.perform] at hcli
  cases CliState.stepped hcli with
  | resumes settings id here r hidle hget =>
    obtain ⟨hmem, hid⟩ := Store.mem_of_get hget
    obtain ⟨r₀, hr₀, rfl⟩ := Store.mem_clearCleanFlags.1 hmem
    refine ⟨_, rfl, hid, ?_⟩
    rw [← hid, show (r₀.markClean false).id = r₀.id from rfl, ← hagrees r₀ hr₀]
    rfl
  | touches e r here file he => simp at he

/-- **What a resume starts from.**  Over every sequence of commands, ended or killed at any point,
a resume starts from the set that is due exactly when the last run of the download did not end
normally, or nothing was checkpointed. -/
theorem resume_due_iff (h : (cleanMachine locate).Reaches (CleanState.start files) s)
    (hs : (cleanMachine locate).step s (.cli (.resume {} id here)) = some s') :
    (∃ r, s'.cli.process = some ⟨r, .begun, here⟩ ∧ r.completedRanges = s.due id) ↔
      s.ended id = false ∨ (s.checkpointed id).isEmpty = true := by
  obtain ⟨r, hr, -, hranges⟩ := resume_starts h hs
  have hstart : (∃ r, s'.cli.process = some ⟨r, .begun, here⟩ ∧ r.completedRanges = s.due id) ↔
      (s.checkpointed id).rewindTails paranoidRewind = s.due id := by
    constructor
    · rintro ⟨r', hr', hdue⟩
      obtain rfl : r = r' := by
        have heq := Option.some.inj (hr.symm.trans hr')
        exact congrArg CliProcess.record heq
      exact hranges.symm.trans hdue
    · exact fun hdue => ⟨r, hr, hranges.trans hdue⟩
  rw [hstart]
  unfold CleanState.due
  cases hended : s.ended id with
  | false => simp
  | true => simp [RangeSet.rewindTails_eq_self_iff (show 0 < paranoidRewind by decide)]

end Resume

/-- A `get` that is killed before it records that it ended. -/
def killedGet : List CleanEvent :=
  (pausedGet (getNamed 1 ['a'])).dropLast.map .cli ++ [.cli .kill]

/-- After the kill the byte is fetched again, as it should be. -/
theorem resume_due_killed :
    ∃ s s', (cleanMachine Publishing.locate).exec (CleanState.start fun _ => none) killedGet =
        some s ∧
      (cleanMachine Publishing.locate).step s (.cli (.resume {} 1 [])) = some s' ∧
      ∃ r, s'.cli.process = some ⟨r, .begun, []⟩ ∧ r.completedRanges = s.due 1 := by
  have hrun : ((cleanMachine Publishing.locate).exec (CleanState.start fun _ => none) killedGet).map
      (fun s => (s.ended 1,
        ((cleanMachine Publishing.locate).step s (.cli (.resume {} 1 []))).isSome)) =
          some (false, true) := by
    decide +kernel
  obtain ⟨s, hs, hres⟩ := Option.map_eq_some_iff.1 hrun
  obtain ⟨hended, hstep⟩ := Prod.mk.inj hres
  obtain ⟨s', hs'⟩ := Option.isSome_iff_exists.1 hstep
  exact ⟨s, s', hs, hs', (resume_due_iff (Machine.reaches_of_exec hs) hs').2 (.inl hended)⟩

/-- After a clean stop it is fetched again as well. -/
theorem clean_stop_rewound :
    ∃ s s' r, (cleanMachine Publishing.locate).Reaches (CleanState.start fun _ => none) s ∧
      s.ended 1 = true ∧
      (cleanMachine Publishing.locate).step s (.cli (.resume {} 1 [])) = some s' ∧
      s'.cli.process = some ⟨r, .begun, []⟩ ∧ r.completedRanges = .new ∧ s.due 1 = ⟨[(0, 1)]⟩ := by
  have hrun : ((cleanMachine Publishing.locate).exec (CleanState.start fun _ => none)
      ((pausedGet (getNamed 1 ['a'])).map .cli)).map
        (fun s => (s.ended 1, s.due 1,
          ((cleanMachine Publishing.locate).step s (.cli (.resume {} 1 []))).map
            fun s' => s'.cli.process)) =
      some (true, ⟨[(0, 1)]⟩, some (some ⟨{ (getNamed 1 ['a']).record with
        status := .paused, bytesDone := 1 }, .begun, []⟩)) := by
    decide +kernel
  obtain ⟨s, hs, hres⟩ := Option.map_eq_some_iff.1 hrun
  obtain ⟨hended, hrest⟩ := Prod.mk.inj hres
  obtain ⟨hdue, hstep⟩ := Prod.mk.inj hrest
  obtain ⟨s', hs', hproc⟩ := Option.map_eq_some_iff.1 hstep
  exact ⟨s, s', _, Machine.reaches_of_exec hs, hended, hs', hproc, rfl, hdue⟩

/-! ### The command behind `CliState.refresh` -/

/-- The rows of `downloads`, without their URLs. -/
def Database.rows (db : Database) : Store := ⟨db.downloads.map LinkedRecord.toDownloadRecord⟩

theorem Database.get_rows (db : Database) (id : ℕ) :
    db.rows.get id = (db.row? id).map LinkedRecord.toDownloadRecord := by
  unfold Store.get rows row?
  rw [List.find?_map]
  rfl

theorem Database.rows_update {db : Database} {id : ℕ} {f : LinkedRecord → LinkedRecord}
    {g : DownloadRecord → DownloadRecord}
    (h : ∀ r, (f r).toDownloadRecord = g r.toDownloadRecord) :
    (db.update id f).rows = db.rows.update id g := by
  unfold rows update Store.update
  rw [List.map_map, List.map_map]
  congr 1
  refine List.map_congr_left fun r _ => ?_
  simp only [Function.comp]
  split_ifs
  · exact h r
  · rfl

theorem Database.row?_update {db : Database} {id : ℕ} {f : LinkedRecord → LinkedRecord}
    {r : LinkedRecord} (hf : ∀ r, (f r).id = r.id) (h : db.row? id = some r) :
    (db.update id f).row? id = some (f r) := by
  have hid : ((fun r : LinkedRecord => r.id == id) ∘ fun r => if r.id = id then f r else r) =
      fun r => r.id == id := by
    funext r
    simp only [Function.comp]
    split_ifs
    · rw [hf]
    · rfl
  unfold row? update
  rw [List.find?_map, hid]
  change (db.row? id).map _ = _
  rw [h, Option.map_some, if_pos (Database.mem_of_row? h).2]

section Refresh

variable {lib : UrlLib} {net : Net} {naming : Naming} {digest : List UInt8 → List UInt8}
  {part : PartFile} {idText : ℕ → String} {cmd : RefreshCmd} {db db' : Database}

theorem Database.downloads_pushUrlHistory {id : ℕ} {url : String} {source : UrlSource}
    {outcome : String} {bytesAtSwap : ℕ}
    (h : (Database.pushUrlHistory lib id url source outcome bytesAtSwap).runFrom db =
      (.ok (), db')) : db'.downloads = db.downloads := by
  unfold Database.pushUrlHistory at h
  rw [Program.runFrom_bind, Program.runFrom_get] at h
  dsimp only at h
  by_cases hrow : db.row? id = none
  · rw [if_pos hrow] at h
    cases h
  · rw [if_neg hrow] at h
    cases h
    rfl

theorem Database.downloads_swapUrl {id : ℕ} {newUrl resolved : String}
    {etag lastModified : Option String} {totalSize : Option ℕ} {acceptRanges : ℤ}
    {validation : ValidationState} {outcome : String}
    (h : (Database.swapUrl lib id newUrl resolved etag lastModified totalSize acceptRanges
      validation outcome).runFrom db = (.ok (), db')) :
    db'.downloads = (db.update id (Statements.swapped newUrl resolved etag lastModified totalSize
      acceptRanges validation)).downloads := by
  unfold Database.swapUrl at h
  rw [Program.runFrom_bind, Program.runFrom_get] at h
  dsimp only at h
  cases hrow : db.row? id with
  | none =>
    rw [hrow] at h
    cases h
  | some r =>
    rw [hrow] at h
    dsimp only at h
    by_cases hfit : totalSize.all sqlFits
    · rw [if_neg (not_not.2 hfit), Program.runFrom_bind, Program.runFrom_modify] at h
      exact downloads_pushUrlHistory h
    · rw [if_pos hfit] at h
      cases h

/-- A `refresh-url` that goes on to `run` has done to the rows what `CliState.refresh` does. -/
theorem cmdRefresh_refreshed {r' : LinkedRecord}
    (h : (cmdRefresh lib net naming digest part idText cmd).runFrom db = (.ok (some r'), db')) :
    ∃ totalSize r, db.rows.get cmd.id = some r ∧
      db'.rows = db.rows.update cmd.id (DownloadRecord.swapUrl totalSize) ∧
      r'.toDownloadRecord = r.refreshed totalSize := by
  unfold cmdRefresh at h
  rw [Program.runFrom_bind, Program.runFrom_get] at h
  dsimp only at h
  cases hr : db.row? cmd.id with
  | none =>
    rw [hr] at h
    cases h
  | some r =>
    rw [hr] at h
    dsimp only at h
    cases hval : cmd.validate lib net naming digest part idText r with
    | error error =>
      rw [hval] at h
      cases h
    | ok report =>
      rw [hval] at h
      dsimp only at h
      cases hdec : cmd.decide report with
      | error failure =>
        rw [hdec] at h
        cases h
      | ok op =>
        rw [hdec] at h
        cases op with
        | none => cases h
        | some op =>
          obtain ⟨rfl, -, -⟩ := RefreshCmd.decide_eq_swap hdec
          dsimp only at h
          rw [Program.runFrom_bind, Program.runFrom_mapError] at h
          rcases hexec : ((cmd.swap report).exec lib).runFrom db with ⟨e | u, db₁⟩
          · rw [hexec] at h
            cases h
          · rw [hexec] at h
            dsimp only at h
            rw [Program.runFrom_bind, Program.runFrom_get] at h
            dsimp only at h
            obtain ⟨hrun, rfl⟩ := Prod.mk.inj h
            have hdown := Database.downloads_swapUrl hexec
            have hrow := (congrArg (List.find? fun r : LinkedRecord => r.id == cmd.id)
              hdown).trans (Database.row?_update (fun _ => by rfl) hr)
            change Except.ok ((db₁.row? cmd.id).map _) = _ at hrun
            rw [show db₁.row? cmd.id = _ from hrow] at hrun
            cases hrun
            refine ⟨_, r.toDownloadRecord, by rw [Database.get_rows, hr]; rfl, ?_, rfl⟩
            unfold Database.rows
            rw [hdown]
            exact Database.rows_update fun _ => rfl

end Refresh

end SwiftLoad
