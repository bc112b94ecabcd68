import SwiftLoad.Store.History
import SwiftLoad.Task.Identity

/-!
# Refreshing a URL

`cmd_refresh` of `main.rs`, up to the download that follows: validate the new URL against what is
on disk, and swap it in only when that is safe.

* `RefreshCmd.decide` : what the command makes of a report.
* `cmdRefresh_spec` : the effect of the command on the database.
* `url_swap_sound` : **a URL is swapped in only for the same bytes.**
-/

namespace SwiftLoad

/-- `range_support_code`. -/
def rangeSupportCode : RangeSupport → ℤ
  | .unknown => 0
  | .supported => 1
  | .unsupported => 2
  | .lied => 3

/-- `code_to_range_support`. -/
def codeToRangeSupport (c : ℤ) : RangeSupport :=
  if c = 1 then .supported else if c = 2 then .unsupported else if c = 3 then .lied else .unknown

theorem codeToRangeSupport_code (r : RangeSupport) :
    codeToRangeSupport (rangeSupportCode r) = r := by
  cases r <;> rfl

/-- What the record says about the resource. -/
def LinkedRecord.signals (r : LinkedRecord) : ResourceSignals where
  totalSize := r.totalSize
  etag := r.etag.bind Validator.parse
  lastModified := r.lastModified
  contentType := r.contentType
  filename := some r.filename
  rangeSupport := codeToRangeSupport r.acceptRanges

/-- The arguments of `refresh-url`. -/
structure RefreshCmd where
  id : ℕ
  newUrl : String
  /-- Accept a replacement that was confirmed by content but not by headers. -/
  yes : Bool := false
  /-- Validate and report without changing anything. -/
  dryRun : Bool := false

/-- Why the command fails. -/
inductive RefreshFailure
  | noRecord
  | invalid (error : RefreshError)
  | rejected (reason : RejectReason)
  | cannotResume
  /-- The user has to pass `--yes`. -/
  | unconfirmed
  | store (error : StoreError)
deriving DecidableEq

namespace RefreshCmd

variable (cmd : RefreshCmd)

/-- The state of the validation that the swap records. -/
def validation : Verdict → ValidationState
  | .resume ev => if ev.etagMatches then .autoVerified else .contentVerified
  | _ => .userConfirmed

/-- The call of `swap_url`. -/
def swap (report : ValidationReport) : Database.Op :=
  .swapUrl cmd.id cmd.newUrl report.resolvedUrl (report.newSignals.etag.map Validator.asHeader)
    report.newSignals.lastModified report.newSignals.totalSize
    (rangeSupportCode report.newSignals.rangeSupport) (validation report.verdict)
    (if cmd.yes then "accepted_confirmed" else "accepted_auto")

/-- What the command makes of a report: the call of `swap_url`, unless this is a dry run. -/
def decide (report : ValidationReport) : Except RefreshFailure (Option Database.Op) :=
  match report.verdict with
  | .reject reason => .error (.rejected reason)
  | .restartOnly => .error .cannotResume
  | .confirm _ =>
    if cmd.yes = false then .error .unconfirmed
    else .ok (if cmd.dryRun then none else some (cmd.swap report))
  | .resume _ => .ok (if cmd.dryRun then none else some (cmd.swap report))

/-- The verdict allows the swap. -/
def Allows (v : Verdict) : Prop :=
  (∃ ev, v = .resume ev) ∨ (cmd.yes = true ∧ ∃ ev, v = .confirm ev)

variable {cmd} {report : ValidationReport} {op : Database.Op}

/-- `swap_url` is called only when the verdict allows it, and never on a dry run. -/
theorem decide_eq_swap (h : cmd.decide report = .ok (some op)) :
    op = cmd.swap report ∧ cmd.Allows report.verdict ∧ cmd.dryRun = false := by
  unfold decide at h
  cases hv : report.verdict with
  | reject reason => rw [hv] at h; cases h
  | restartOnly => rw [hv] at h; cases h
  | resume ev =>
    rw [hv] at h
    dsimp only at h
    split_ifs at h with hdry
    · cases h
    · cases h
      exact ⟨rfl, .inl ⟨ev, rfl⟩, by simpa using hdry⟩
  | confirm ev =>
    rw [hv] at h
    dsimp only at h
    split_ifs at h with hyes hdry
    · cases h
    · cases h
      exact ⟨rfl, .inr ⟨by simpa using hyes, ev, rfl⟩, by simpa using hdry⟩

end RefreshCmd

section

variable (lib : UrlLib) (net : Net) (naming : Naming) (digest : List UInt8 → List UInt8)
  (part : PartFile) (idText : ℕ → String)

/-- The validation that `cmd_refresh` runs for a record. -/
def RefreshCmd.validate (cmd : RefreshCmd) (r : LinkedRecord) :
    Except RefreshError ValidationReport :=
  let settings : Settings := {}
  ((validateReplacementUrl lib net naming settings {} digest part cmd.newUrl r.signals
    (r.resumeState settings.paranoidRecovery).1 (idText cmd.id)).runFrom []).1

/-- `cmd_refresh` up to `run`: the record to run with the new URL, or nothing after a dry run.
`part` is the part file of the record, and `idText` is the text of an id. -/
def cmdRefresh (cmd : RefreshCmd) :
    Program Database RefreshFailure (Option LinkedRecord) := do
  let db ← get
  match db.row? cmd.id with
  | none => throw .noRecord
  | some r =>
    match cmd.validate lib net naming digest part idText r with
    | .error error => throw (.invalid error)
    | .ok report =>
      match cmd.decide report with
      | .error failure => throw failure
      | .ok none => pure none
      | .ok (some op) => do
        (op.exec lib).mapError .store
        let db ← get
        pure ((db.row? cmd.id).map fun r' =>
          { r' with completedRanges := (r.resumeState ({} : Settings).paranoidRecovery).1 })

end

variable {lib : UrlLib} {net : Net} {naming : Naming} {digest : List UInt8 → List UInt8}
  {part : PartFile} {idText : ℕ → String}

/-- The command leaves the database alone, or calls `swap_url` once for a record whose validation
allows it. -/
theorem cmdRefresh_spec (cmd : RefreshCmd) (db : Database) :
    ((cmdRefresh lib net naming digest part idText cmd).runFrom db).2 = db ∨
      ∃ r report, db.row? cmd.id = some r ∧
        cmd.validate lib net naming digest part idText r = .ok report ∧
        cmd.Allows report.verdict ∧ cmd.dryRun = false ∧
        ((cmdRefresh lib net naming digest part idText cmd).runFrom db).2 =
          (((cmd.swap report).exec lib).runFrom db).2 := by
  unfold cmdRefresh
  rw [Program.runFrom_bind, Program.runFrom_get]
  dsimp only
  cases hr : db.row? cmd.id with
  | none => exact .inl rfl
  | some r =>
    dsimp only
    cases hval : cmd.validate lib net naming digest part idText r with
    | error error => exact .inl rfl
    | ok report =>
      dsimp only
      cases hdec : cmd.decide report with
      | error failure => exact .inl rfl
      | ok op =>
        cases op with
        | none => exact .inl rfl
        | some op =>
          obtain ⟨rfl, hallows, hdry⟩ := RefreshCmd.decide_eq_swap hdec
          refine .inr ⟨r, report, rfl, hval, hallows, hdry, ?_⟩
          rw [Program.runFrom_bind, Program.runFrom_mapError]
          rcases ((cmd.swap report).exec lib).runFrom db with ⟨_ | _, db'⟩ <;> rfl

/-- **A swap of the URL is sound.**  Whatever the replacement server answers and whatever the part
file holds, for the validation of a new URL and for `refresh-url`:

* a verdict to go on with a set that is not empty means that every window was answered 206 with
  the bytes that are on disk;
* to resume without a prompt also takes known and equal sizes and range support;
* known sizes that differ are a refusal without a request for a window;
* names and content types, recorded or served, do not change the kind of the verdict;
* the database changes only by a swap that the verdict allows, and not on a dry run. -/
theorem url_swap_sound (lib : UrlLib) (net : Net) (naming : Naming)
    (digest : List UInt8 → List UInt8) (part : PartFile) (settings : Settings) (spec : RequestSpec)
    (newUrl : String) (old : ResourceSignals) (completed : RangeSet) (downloadId : String)
    (idText : ℕ → String) (cmd : RefreshCmd) (db : Database) :
    let run := (validateReplacementUrl lib net naming settings spec digest part newUrl old
      completed downloadId).runFrom []
    let probed := (probe lib net naming settings spec false newUrl).runFrom []
    let after := ((cmdRefresh lib net naming digest part idText cmd).runFrom db).2
    (∀ report, run.1 = .ok report → report.verdict.goesOn = true → completed.covered.Nonempty →
      ∃ pr client, probed.1 = .ok pr ∧
        ∀ w ∈ chooseWindows digest completed downloadId windowCount,
          ∃ x ∈ run.2, Confirms spec part client pr.finalUrl w x) ∧
    (∀ report ev, run.1 = .ok report → report.verdict = .resume ev →
      report.newSignals.rangeSupport = .supported ∧
        ∃ n, old.totalSize = some n ∧ report.newSignals.totalSize = some n) ∧
    (∀ pr a b, probed.1 = .ok pr → old.totalSize = some a → pr.totalSize = some b → a ≠ b →
      ∃ report, run = (.ok report, probed.2) ∧ report.verdict = .reject (.sizeMismatch a b)) ∧
    (∀ net' naming' old', net.Renamed net' → old.core = old'.core →
      Program.EndAlike (fun r r' => r.verdict.kind = r'.verdict.kind) (· = ·) run.1
        ((validateReplacementUrl lib net' naming' settings spec digest part newUrl old'
          completed downloadId).runFrom []).1) ∧
    (after = db ∨ ∃ r report, db.row? cmd.id = some r ∧
      cmd.validate lib net naming digest part idText r = .ok report ∧
      cmd.Allows report.verdict ∧ cmd.dryRun = false ∧
      after = (((cmd.swap report).exec lib).runFrom db).2) := by
  intro run probed after
  have hspec : Program.Ends _ _ run := validate_spec newUrl [] [] rfl
  have hsound : ∀ report, run.1 = .ok report → ∃ pr, probed.1 = .ok pr ∧
      report.Sound spec digest part old completed downloadId pr run.2 := by
    intro report hrun
    rw [← Prod.mk.eta (p := run), hrun] at hspec
    exact hspec
  refine ⟨fun report hrun hgo hne => ?_, fun report ev hrun hev => ?_,
    fun pr a b hpr ha hb hab => ?_, fun net' naming' old' h hold => ?_, cmdRefresh_spec cmd db⟩
  · obtain ⟨pr, hpr, hs⟩ := hsound report hrun
    obtain ⟨client, hall⟩ := hs.confirmed hgo hne
    exact ⟨pr, client, hpr, hall⟩
  · obtain ⟨pr, hpr, hs⟩ := hsound report hrun
    have hgo : report.verdict.goesOn = true := by
      rw [hev]
      rfl
    rw [hs.signals]
    exact ⟨hs.supported hgo, hs.sizes ev hev⟩
  · refine ⟨reportOn lib pr (.reject (.sizeMismatch a b)) 0 0, ?_, rfl⟩
    have hprobed : (probe lib net naming settings spec false newUrl).runFrom [] =
        (.ok pr, probed.2) := Prod.ext hpr rfl
    change (validateReplacementUrl lib net naming settings spec digest part newUrl old
      completed downloadId).runFrom [] = _
    unfold validateReplacementUrl
    rw [Program.runFrom_bind, Program.runFrom_mapError, hprobed]
    exact validateContent_sizes ha hb hab _
  · exact (validate_renamed h hold newUrl [] [] rfl).1

end SwiftLoad
