import SwiftLoad.Fsx
import SwiftLoad.Machine.TwoRuns
import SwiftLoad.Task.Probing
import SwiftLoad.Task.Windows

/-!
# Resource identity

`task/identity.rs`: does a replacement URL serve the same bytes?  The headers are compared first,
then windows of what is on disk with the same windows from the new URL.

* `compare`, `finalize` : the decision before and after the content check.
* `checkWindows_spec` : the invariant of the loop over the windows.
* `validate_spec` : what a validation that returns has established.
* `validate_alike` : names and content types do not change a verdict.
-/

namespace SwiftLoad

/-- The header-level facts about a resource. -/
structure ResourceSignals where
  totalSize : Option ℕ := none
  etag : Option Validator := none
  lastModified : Option String := none
  contentType : Option String := none
  filename : Option Name := none
  rangeSupport : RangeSupport := .unknown
deriving DecidableEq

/-- `ResourceSignals::from_probe`. -/
def ResourceSignals.fromProbe (p : ProbeDetails) : ResourceSignals where
  totalSize := p.totalSize
  etag := p.etag
  lastModified := p.lastModified
  contentType := p.contentType
  filename := some p.filename
  rangeSupport := p.rangeSupport

/-- `RejectReason`. -/
inductive RejectReason
  /-- Both sizes known and different. -/
  | sizeMismatch (old new : ℕ)
  /-- A verification window did not match what is on disk. -/
  | contentMismatch (offset : ℕ)
  | badScheme
  | authRequired
deriving DecidableEq, Repr

/-- What the header comparison concluded. -/
inductive Preliminary
  /-- Resume with no prompt. -/
  | accept
  /-- On a successful content check resume without prompting. -/
  | verifyThenAccept
  /-- The user should confirm after the content check. -/
  | verifyThenConfirm
  | reject (reason : RejectReason)
  /-- The new link cannot resume. -/
  | restartOnly
deriving DecidableEq, Repr

/-- Header-level evidence. -/
structure Evidence where
  sizeMatches : Bool := false
  etagMatches : Bool := false
  etagChanged : Bool := false
  lastModifiedMatches : Bool := false
  filenameMatches : Bool := false
  contentTypeMatches : Bool := false
  windowsVerified : ℕ := 0
deriving DecidableEq, Repr

/-- Both are known and related. -/
def bothKnown {α : Type} (r : α → α → Bool) : Option α → Option α → Bool
  | some a, some b => r a b
  | _, _ => false

namespace ResourceSignals

variable (old new : ResourceSignals)

/-- The one conclusive gate: both sizes known and different. -/
def sizeMismatch : Option RejectReason :=
  match old.totalSize, new.totalSize with
  | some a, some b => if a = b then none else some (.sizeMismatch a b)
  | _, _ => none

/-- What agrees. -/
def evidence : Evidence where
  sizeMatches := bothKnown (fun a b => decide (a = b)) old.totalSize new.totalSize
  etagMatches := bothKnown (fun a b => decide (a.raw = b.raw)) old.etag new.etag
  etagChanged := bothKnown (fun a b => decide (a.raw ≠ b.raw)) old.etag new.etag
  lastModifiedMatches := bothKnown (fun a b => decide (a = b)) old.lastModified new.lastModified
  filenameMatches := bothKnown eqIgnoreAsciiCase old.filename new.filename
  contentTypeMatches := decide (old.contentType = new.contentType)

/-- `compare`: compare header signals. -/
def compare : Preliminary × Evidence :=
  match sizeMismatch old new with
  | some reason => (.reject reason, {})
  | none =>
    let ev := evidence old new
    let bothStrong := bothKnown (fun a b => a.isStrong && b.isStrong) old.etag new.etag
    let outcome : Preliminary :=
      if new.rangeSupport ≠ .supported then .restartOnly
      else if ev.etagMatches && bothStrong && ev.sizeMatches then
        -- strong validator plus matching size: as good as headers get
        .accept
      else if ev.sizeMatches && ev.lastModifiedMatches && old.etag.isNone && new.etag.isNone then
        .verifyThenAccept
      else if ev.etagMatches && ev.sizeMatches then
        -- weak validator match: asserts equivalence, not byte identity
        .verifyThenAccept
      else if ev.etagChanged then
        -- the common, legitimate case: escalate to content, then ask
        .verifyThenConfirm
      else .verifyThenConfirm
    (outcome, ev)

end ResourceSignals

/-- `first_difference`: the absolute offset of the first difference. -/
def firstDifference (offset : ℕ) (onDisk remote : List UInt8) : Option ℕ :=
  if onDisk.length ≠ remote.length then some (offset + min onDisk.length remote.length)
  else ((onDisk.zip remote).findIdx? fun p => p.1 != p.2).map (offset + ·)

/-- The final decision. -/
inductive Verdict
  /-- Swap the URL and resume with no prompt. -/
  | resume (ev : Evidence)
  /-- Content matched, but ask before resuming. -/
  | confirm (ev : Evidence)
  | reject (reason : RejectReason)
  /-- Restarting would re-transfer everything. -/
  | restartOnly
deriving DecidableEq, Repr

/-- The kind of a verdict, with the reason of a refusal but without the evidence. -/
def Verdict.kind : Verdict → Verdict
  | resume _ => resume {}
  | confirm _ => confirm {}
  | v => v

/-- `finalize`: a content mismatch is a hard reject. -/
def finalize (pre : Preliminary) (ev : Evidence) (mismatchAt : Option ℕ) (windows : ℕ) : Verdict :=
  match mismatchAt with
  | some offset => .reject (.contentMismatch offset)
  | none =>
    let ev := { ev with windowsVerified := windows }
    match pre with
    | .accept => .resume ev
    | .verifyThenAccept => .resume ev
    | .verifyThenConfirm => .confirm ev
    | .reject r => .reject r
    | .restartOnly => .restartOnly

/-- The result of validating a replacement URL. -/
structure ValidationReport where
  verdict : Verdict
  /-- What the replacement URL says about itself. -/
  newSignals : ResourceSignals
  resolvedUrl : String
  windowsChecked : ℕ
  /-- Bytes spent proving identity. -/
  bytesVerified : ℕ
deriving DecidableEq

/-- `RefreshError`. -/
inductive RefreshError
  | probe (error : ProbeError)
  | io (text : String)
  | client (text : String)
deriving DecidableEq

/-- The part file as the validation finds it. -/
structure PartFile where
  file : File
  /-- Why it cannot be opened. -/
  openError : Option String := none
  /-- Why it cannot be read at an offset. -/
  readError : ℕ → Option String := fun _ => none

/-- The request for one window. -/
def windowRequest (client : Client) (spec : RequestSpec) (url : Url) (offset len : ℕ) :
    Request where
  client := client
  url := url
  headers := applySpec spec ++ [rangeHeader offset (offset + len - 1)]

/-- How the loop over the windows ends. -/
inductive WindowsEnd
  /-- All windows were compared, or one differs. -/
  | compared (mismatch : Option ℕ) (bytesVerified : ℕ)
  /-- A reply that is no proper partial response. -/
  | refused (offset bytesVerified : ℕ)

/-- The content is worth verifying: there is something to verify against, the new URL can serve it
and the headers have not decided yet. -/
def verifiable (completed : RangeSet) (support : RangeSupport) (pre : Preliminary) : Bool :=
  decide (0 < completed.total ∧ support = .supported) &&
    match pre with
    | .reject _ | .restartOnly => false
    | _ => true

section

variable (lib : UrlLib) (net : Net) (naming : Naming) (settings : Settings) (spec : RequestSpec)
  (digest : List UInt8 → List UInt8) (part : PartFile) (client : Client) (url : Url)

/-- The loop over the windows. -/
def checkWindows : List (ℕ × ℕ) → ℕ → Program (List Exchange) RefreshError WindowsEnd
  | [], bytesVerified => pure (.compared none bytesVerified)
  | (offset, len) :: rest, bytesVerified =>
    -- what we already have on disk
    match part.readError offset with
    | some text => throw (.io text)
    | none => do
      let onDisk := part.file.readAt offset len
      -- the same window from the replacement URL
      match ← net.send (windowRequest client spec url offset len) with
      | .error kind => throw (.client (net.display kind url))
      | .ok reply =>
        if reply.status = 206 then
          match reply.bytes with
          | .error text => throw (.client text)
          | .ok remote =>
            match firstDifference offset onDisk remote with
            | some place => pure (.compared (some place) (bytesVerified + remote.length))
            | none => checkWindows rest (bytesVerified + remote.length)
        else
          -- "cannot confirm" must never become "assume fine"
          pure (.refused offset bytesVerified)

/-- The report on what the probe found. -/
def reportOn (pr : ProbeDetails) (verdict : Verdict) (windowsChecked bytesVerified : ℕ) :
    ValidationReport where
  verdict := verdict
  newSignals := .fromProbe pr
  resolvedUrl := lib.print pr.finalUrl
  windowsChecked := windowsChecked
  bytesVerified := bytesVerified

/-- `validate_replacement_url` after the probe. -/
def validateContent (old : ResourceSignals) (completed : RangeSet) (downloadId : String)
    (pr : ProbeDetails) : Program (List Exchange) RefreshError ValidationReport :=
  let cmp := ResourceSignals.compare old (.fromProbe pr)
  if verifiable completed pr.rangeSupport cmp.1 = false then
    pure (reportOn lib pr (finalize cmp.1 cmp.2 none 0) 0 0)
  else
    let windows := chooseWindows digest completed downloadId windowCount
    match Client.build net settings spec pr.finalUrl with
    | .error error => throw (.client error.display)
    | .ok client =>
      match part.openError with
      | some text => throw (.io text)
      | none => do
        match ← checkWindows net spec part client pr.finalUrl windows 0 with
        | .compared mismatch bytes =>
          pure (reportOn lib pr (finalize cmp.1 cmp.2 mismatch windows.length) windows.length bytes)
        | .refused offset bytes =>
          pure (reportOn lib pr (.reject (.contentMismatch offset)) bytes bytes)

/-- `validate_replacement_url`: validate a replacement URL against a partial download. -/
def validateReplacementUrl (newUrl : String) (old : ResourceSignals) (completed : RangeSet)
    (downloadId : String) : Program (List Exchange) RefreshError ValidationReport := do
  let pr ← (probe lib net naming settings spec false newUrl).mapError .probe
  validateContent lib net settings spec digest part old completed downloadId pr

end

/-! ### What a verdict means -/

theorem firstDifference_eq_none {offset : ℕ} {onDisk remote : List UInt8} :
    firstDifference offset onDisk remote = none ↔ remote = onDisk := by
  unfold firstDifference
  split_ifs with hlen
  · refine ⟨nofun, fun h => ?_⟩
    rw [h] at hlen
    exact absurd rfl hlen
  · have hlen : onDisk.length = remote.length := not_not.1 hlen
    rw [Option.map_eq_none_iff, List.findIdx?_eq_none_iff]
    constructor
    · intro h
      refine List.ext_getElem hlen.symm fun i hr hd => ?_
      have hmem : (onDisk[i], remote[i]) ∈ onDisk.zip remote :=
        List.mem_iff_getElem.2 ⟨i, by simp [hd, hr], by simp⟩
      have heq := h _ hmem
      exact (by simpa using heq : onDisk[i] = remote[i]).symm
    · rintro rfl p hp
      obtain ⟨i, hi, rfl⟩ := List.mem_iff_getElem.1 hp
      simp

theorem bothKnown_iff {α : Type} {r : α → α → Bool} {o o' : Option α} :
    bothKnown r o o' = true ↔ ∃ a ∈ o, ∃ b ∈ o', r a b = true := by
  cases o <;> cases o' <;> simp [bothKnown]

namespace ResourceSignals

variable {old new : ResourceSignals}

theorem sizeMismatch_of_ne {a b : ℕ} (ha : old.totalSize = some a) (hb : new.totalSize = some b)
    (hne : a ≠ b) : compare old new = (.reject (.sizeMismatch a b), {}) := by
  simp only [compare, sizeMismatch, ha, hb, if_neg hne]

theorem supported_of_compare (hr : ∀ r, (compare old new).1 ≠ .reject r)
    (hs : (compare old new).1 ≠ .restartOnly) : new.rangeSupport = .supported := by
  unfold compare at hr hs
  cases hm : sizeMismatch old new with
  | some reason => rw [hm] at hr; exact absurd rfl (hr reason)
  | none =>
    rw [hm] at hs
    by_contra hsup
    exact hs (if_pos hsup)

theorem sizes_of_compare
    (h : (compare old new).1 = .accept ∨ (compare old new).1 = .verifyThenAccept) :
    ∃ n, old.totalSize = some n ∧ new.totalSize = some n := by
  have hsize : (evidence old new).sizeMatches = true := by
    unfold compare at h
    cases hm : sizeMismatch old new with
    | some reason => rw [hm] at h; simp at h
    | none =>
      rw [hm] at h
      dsimp only at h
      split_ifs at h with h₁ h₂ h₃ h₄ h₅
      all_goals simp_all
  cases ho : old.totalSize with
  | none => rw [evidence, ho] at hsize; cases hsize
  | some a =>
    cases hn : new.totalSize with
    | none => rw [evidence, ho, hn] at hsize; cases hsize
    | some b =>
      rw [evidence, ho, hn] at hsize
      have hab : a = b := of_decide_eq_true hsize
      exact ⟨a, rfl, by rw [hab]⟩

/-- A link with ranges is accepted without a question for its size and its tag, or for its size and
its time when there are no tags. -/
theorem accepted_iff (hm : sizeMismatch old new = none)
    (hs : new.rangeSupport = .supported) :
    ((compare old new).1 = .accept ∨
      (compare old new).1 = .verifyThenAccept) ↔
      (evidence old new).sizeMatches = true ∧
        ((evidence old new).etagMatches = true ∨
          (evidence old new).lastModifiedMatches = true ∧ old.etag = none ∧
            new.etag = none) := by
  unfold compare
  rw [hm]
  simp only [hs, ne_eq, not_true_eq_false, if_false]
  generalize bothKnown (fun a b : Validator => a.isStrong && b.isStrong) old.etag new.etag = strong
  generalize evidence old new = ev
  cases ev.sizeMatches <;> cases ev.etagMatches <;> cases ev.lastModifiedMatches <;>
    cases strong <;> cases old.etag <;> cases new.etag <;> simp

end ResourceSignals

variable {lib : UrlLib} {net : Net} {naming : Naming} {settings : Settings} {spec : RequestSpec}
  {digest : List UInt8 → List UInt8} {part : PartFile} {client : Client} {url : Url}
  {old : ResourceSignals} {completed : RangeSet} {downloadId : String}

/-- The exchange confirms a window: a partial response with the bytes that are on disk. -/
def Confirms (spec : RequestSpec) (part : PartFile) (client : Client) (url : Url) (w : ℕ × ℕ)
    (x : Exchange) : Prop :=
  x.request = windowRequest client spec url w.1 w.2 ∧
    ∃ reply, x.answer = .ok reply ∧ reply.status = 206 ∧
      reply.bytes = .ok (part.file.readAt w.1 w.2)

/-- The loop over the windows finds no difference only when every window is confirmed. -/
theorem checkWindows_spec (windows : List (ℕ × ℕ)) (n : ℕ) (t₀ : List Exchange) :
    Program.Triple (· = t₀) (checkWindows net spec part client url windows n)
      (fun res t => t₀ <+: t ∧ ∀ bytes, res = .compared none bytes →
        ∀ w ∈ windows, ∃ x ∈ t, Confirms spec part client url w x)
      (fun _ _ => True) := by
  induction windows generalizing n t₀ with
  | nil =>
    refine Program.Triple.pure fun t ht => ⟨by rw [ht], fun _ _ w hw => ?_⟩
    exact absurd hw List.not_mem_nil
  | cons w windows ih =>
    obtain ⟨offset, len⟩ := w
    rw [checkWindows]
    cases part.readError offset with
    | some text => exact Program.Triple.throw fun _ _ => trivial
    | none =>
      refine Program.Triple.bind (Q := fun r t =>
        t = t₀ ++ [⟨windowRequest client spec url offset len, r⟩])
        (Program.Triple.modifyGet fun t ht => by rw [ht]) fun r => ?_
      cases r with
      | error kind => exact Program.Triple.throw fun _ _ => trivial
      | ok reply =>
        refine Program.Triple.ite (fun hstatus => ?_) fun _ => Program.Triple.pure fun t ht =>
          ⟨by rw [ht]; exact List.prefix_append _ _, nofun⟩
        cases hbytes : reply.bytes with
        | error text => exact Program.Triple.throw fun _ _ => trivial
        | ok remote =>
          dsimp only
          cases hdiff : firstDifference offset (part.file.readAt offset len) remote with
          | some place => exact Program.Triple.pure fun t ht =>
              ⟨by rw [ht]; exact List.prefix_append _ _, nofun⟩
          | none =>
            refine (ih _ _).conseq (fun _ h => h) ?_ fun _ _ _ => trivial
            rintro res t ⟨hpre, hall⟩
            refine ⟨(List.prefix_append _ _).trans hpre, fun bytes hres v hv => ?_⟩
            rcases List.mem_cons.1 hv with rfl | hv
            · refine ⟨_, hpre.subset (List.mem_append_right _ (List.mem_singleton_self _)), rfl,
                reply, rfl, hstatus, ?_⟩
              rw [hbytes, firstDifference_eq_none.1 hdiff]
            · exact hall bytes hres v hv

@[simp] theorem reportOn_verdict (pr : ProbeDetails) (verdict : Verdict) (windows bytes : ℕ) :
    (reportOn lib pr verdict windows bytes).verdict = verdict := rfl

/-- The verdict lets the download go on with the new URL. -/
def Verdict.goesOn (v : Verdict) : Bool := decide (v.kind = .resume {} ∨ v.kind = .confirm {})

/-- A verdict to go on rests on headers that did not refuse and on a content check, if there was
one, that found no difference. -/
theorem goesOn_finalize {pre : Preliminary} {ev : Evidence} {mismatch : Option ℕ} {windows : ℕ}
    (h : (finalize pre ev mismatch windows).goesOn = true) :
    mismatch = none ∧ (∀ r, pre ≠ .reject r) ∧ pre ≠ .restartOnly := by
  cases mismatch with
  | some offset => simp [finalize, Verdict.goesOn, Verdict.kind] at h
  | none => cases pre <;> simp [finalize, Verdict.goesOn, Verdict.kind] at h ⊢

theorem resume_finalize {pre : Preliminary} {ev ev' : Evidence} {mismatch : Option ℕ} {windows : ℕ}
    (h : finalize pre ev mismatch windows = .resume ev') :
    pre = .accept ∨ pre = .verifyThenAccept := by
  cases mismatch with
  | some offset => cases h
  | none => cases pre <;> simp [finalize] at h ⊢

/-- What a report says about the new URL. -/
structure ValidationReport.Sound (spec : RequestSpec) (digest : List UInt8 → List UInt8)
    (part : PartFile) (old : ResourceSignals) (completed : RangeSet) (downloadId : String)
    (pr : ProbeDetails) (report : ValidationReport) (traffic : List Exchange) : Prop where
  signals : report.newSignals = .fromProbe pr
  /-- Every window was answered with the bytes on disk. -/
  confirmed : report.verdict.goesOn = true → completed.covered.Nonempty →
    ∃ client, ∀ w ∈ chooseWindows digest completed downloadId windowCount,
      ∃ x ∈ traffic, Confirms spec part client pr.finalUrl w x
  supported : report.verdict.goesOn = true → pr.rangeSupport = .supported
  sizes : ∀ ev, report.verdict = .resume ev →
    ∃ n, old.totalSize = some n ∧ pr.totalSize = some n

/-- A report with the final decision is sound when every window was confirmed, unless a difference
was found or the headers refused. -/
theorem sound_finalize {pr : ProbeDetails} {mismatch : Option ℕ} {t : List Exchange}
    (h : mismatch = none → completed.covered.Nonempty →
      (∀ r, (ResourceSignals.compare old (.fromProbe pr)).1 ≠ .reject r) →
      (ResourceSignals.compare old (.fromProbe pr)).1 ≠ .restartOnly →
        ∃ client, ∀ w ∈ chooseWindows digest completed downloadId windowCount,
          ∃ x ∈ t, Confirms spec part client pr.finalUrl w x) (n windows bytes : ℕ) :
    ValidationReport.Sound spec digest part old completed downloadId pr
      (reportOn lib pr (finalize (ResourceSignals.compare old (.fromProbe pr)).1
        (ResourceSignals.compare old (.fromProbe pr)).2 mismatch n) windows bytes) t where
  signals := rfl
  confirmed hgo hne := by
    obtain ⟨hm, hr, hs⟩ := goesOn_finalize (by exact hgo)
    exact h hm hne hr hs
  supported hgo := by
    obtain ⟨-, hr, hs⟩ := goesOn_finalize (by exact hgo)
    exact ResourceSignals.supported_of_compare hr hs
  sizes ev hev := ResourceSignals.sizes_of_compare (resume_finalize (by exact hev))

theorem verifiable_eq_true {support : RangeSupport} {pre : Preliminary}
    (htotal : 0 < completed.total) (hsup : support = .supported)
    (hr : ∀ r, pre ≠ .reject r) (hs : pre ≠ .restartOnly) :
    verifiable completed support pre = true := by
  unfold verifiable
  rw [decide_eq_true ⟨htotal, hsup⟩, Bool.true_and]
  cases pre with
  | reject r => exact absurd rfl (hr r)
  | restartOnly => exact absurd rfl hs
  | accept => rfl
  | verifyThenAccept => rfl
  | verifyThenConfirm => rfl

theorem validateContent_spec (pr : ProbeDetails) (t₀ : List Exchange) :
    Program.Triple (· = t₀)
      (validateContent lib net settings spec digest part old completed downloadId pr)
      (ValidationReport.Sound spec digest part old completed downloadId pr)
      (fun _ _ => True) := by
  unfold validateContent
  refine Program.Triple.ite (fun hver => Program.Triple.pure fun t _ => ?_) fun _ => ?_
  · refine sound_finalize (fun _ hne hr hs => ?_) _ _ _
    -- a non-empty set is verified before the download may go on
    have hsup : pr.rangeSupport = .supported := ResourceSignals.supported_of_compare hr hs
    obtain ⟨b, hb⟩ := hne
    rw [verifiable_eq_true (Ranges.size_pos hb) hsup hr hs] at hver
    cases hver
  · cases Client.build net settings spec pr.finalUrl with
    | error error => exact Program.Triple.throw fun _ _ => trivial
    | ok client =>
      dsimp only
      cases part.openError with
      | some text => exact Program.Triple.throw fun _ _ => trivial
      | none =>
        refine Program.Triple.bind (checkWindows_spec _ 0 t₀) fun res => ?_
        cases res with
        | refused offset bytes => exact Program.Triple.pure fun t _ => ⟨rfl, nofun, nofun, nofun⟩
        | compared mismatch bytes =>
          refine Program.Triple.pure fun t ht => sound_finalize (fun hm _ _ _ => ?_) _ _ _
          rw [hm] at ht
          exact ⟨client, ht.2 bytes rfl⟩

/-- With sizes that differ no window is requested. -/
theorem validateContent_sizes {pr : ProbeDetails} {a b : ℕ} (ha : old.totalSize = some a)
    (hb : pr.totalSize = some b) (hne : a ≠ b) (t : List Exchange) :
    (validateContent lib net settings spec digest part old completed downloadId pr).runFrom t =
      (.ok (reportOn lib pr (.reject (.sizeMismatch a b)) 0 0), t) := by
  have hcmp : ResourceSignals.compare old (.fromProbe pr) = (.reject (.sizeMismatch a b), {}) :=
    ResourceSignals.sizeMismatch_of_ne ha hb hne
  have hver : verifiable completed pr.rangeSupport (.reject (.sizeMismatch a b)) = false :=
    Bool.and_false _
  unfold validateContent
  rw [hcmp]
  simp only [hver, if_true]
  rfl

theorem validate_spec (newUrl : String) (t₀ : List Exchange) :
    Program.Triple (· = t₀)
      (validateReplacementUrl lib net naming settings spec digest part newUrl old completed
        downloadId)
      (fun report t => ∃ pr,
        ((probe lib net naming settings spec false newUrl).runFrom t₀).1 = .ok pr ∧
          report.Sound spec digest part old completed downloadId pr t)
      (fun _ _ => True) := by
  unfold validateReplacementUrl
  refine Program.Triple.bind (Q := fun pr _ =>
    ((probe lib net naming settings spec false newUrl).runFrom t₀).1 = .ok pr) ?_ fun pr => ?_
  · refine Program.Triple.mapError ?_
    rintro _ rfl
    rcases (probe lib net naming settings spec false newUrl).runFrom _ with ⟨r, t⟩
    cases r with
    | error e => trivial
    | ok pr => rfl
  · exact Program.Triple.of_eq fun t hpr => (validateContent_spec pr t).conseq (fun _ h => h)
      (fun report t h => ⟨pr, hpr, h⟩) fun _ _ _ => trivial

/-! ### Names and content types -/

section Names

variable {net' : Net} {naming' : Naming} {old' : ResourceSignals}

/-- A reply without the disposition and the content type. -/
def Reply.core (r : Reply) : Reply := { r with disposition := none, contentType := none }

/-- Replies that differ at most in the disposition and the content type. -/
def Reply.Renamed (r r' : Reply) : Prop := r.core = r'.core

/-- Servers whose replies differ at most in dispositions and content types. -/
structure Net.Renamed (net net' : Net) : Prop where
  proxyError : net.proxyError = net'.proxyError
  buildError : net.buildError = net'.buildError
  display : net.display = net'.display
  answer : ∀ n req, Program.EndAlike Reply.Renamed (· = ·) (net.answer n req) (net'.answer n req)

/-- The signals without the name and the content type. -/
def ResourceSignals.core (s : ResourceSignals) : ResourceSignals :=
  { s with filename := none, contentType := none }

/-- What a probe learned, without the name, the content type and the chain. -/
def ProbeDetails.core (p : ProbeDetails) : ProbeDetails :=
  { p with filename := [], contentType := none, redirectChain := [] }

theorem compare_core (old new : ResourceSignals) :
    (ResourceSignals.compare old.core new.core).1 = (ResourceSignals.compare old new).1 := by
  unfold ResourceSignals.compare
  have hm : ResourceSignals.sizeMismatch old.core new.core = ResourceSignals.sizeMismatch old new :=
    rfl
  rw [hm]
  cases ResourceSignals.sizeMismatch old new with
  | some reason => rfl
  | none => rfl

theorem kind_finalize (pre : Preliminary) (ev ev' : Evidence) (mismatch : Option ℕ) (n : ℕ) :
    (finalize pre ev mismatch n).kind = (finalize pre ev' mismatch n).kind := by
  cases mismatch with
  | some offset => rfl
  | none => cases pre <;> rfl

theorem Reply.Renamed.interpret_core {r r' : Reply} (h : r.Renamed r') (url : Url)
    (chain chain' : List Hop) :
    (interpret naming r url chain).core = (interpret naming' r' url chain').core := by
  have hcore : ∀ (naming : Naming) (r : Reply) (chain : List Hop),
      (interpret naming r url chain).core = (interpret naming r.core url []).core :=
    fun _ _ _ => rfl
  rw [hcore, hcore naming', h]
  rfl

theorem send_renamed {ε : Type} {E : ε → ε → Prop} (h : net.Renamed net') (req : Request) :
    Program.Alike (fun t t' => t.length = t'.length)
      (Program.EndAlike Reply.Renamed (· = ·)) E (net.send req) (net'.send req) := by
  intro t t' hlen
  refine ⟨.ok ?_, ?_⟩
  · rw [hlen]
    exact h.answer _ _
  · change (t ++ [_]).length = (t' ++ [_]).length
    rw [List.length_append, List.length_append, hlen]
    rfl

theorem probe_renamed (h : net.Renamed net') (raw : String) (worked : Bool) :
    Program.Alike (fun t t' => t.length = t'.length) (fun p p' => p.core = p'.core) (· = ·)
      (probe lib net naming settings spec worked raw)
      (probe lib net' naming' settings spec worked raw) := by
  unfold probe
  cases validateUrl lib raw with
  | error error => exact Program.Alike.throw rfl
  | ok origin =>
    intro t t' hlen
    refine follow_alike (V := fun _ u u' => u = u') (fun _ => rfl) ?_ hlen rfl rfl
    rintro n left u _ rfl -
    refine ⟨Client.build_congr h.proxyError h.buildError rfl, fun client _ => ?_⟩
    have hans := h.answer n (probeRequest client spec origin u)
    generalize net.answer n _ = r at hans ⊢
    generalize net'.answer n _ = r' at hans ⊢
    cases hans with
    | error hkind => exact .error (by rw [hkind, h.display])
    | @ok reply reply' hr =>
      refine .ok (congrArg (fun r : Reply => r.status) hr :)
        (congrArg (fun r : Reply => r.retryAfter) hr :) (fun _ _ => ?_)
        fun chain chain' => hr.interpret_core u chain chain'
      have hloc : reply.location = reply'.location :=
        (congrArg (fun r : Reply => r.location) hr :)
      rw [hloc]
      cases reply'.location with
      | none => exact .none
      | some location =>
        refine .some ?_
        cases nextUrl lib u location (!settings.blockInsecureRedirect) with
        | error error => exact .error rfl
        | ok next => exact .ok rfl

theorem checkWindows_renamed (h : net.Renamed net') (windows : List (ℕ × ℕ)) (n : ℕ) :
    Program.Alike (fun t t' => t.length = t'.length) (· = ·) (· = ·)
      (checkWindows net spec part client url windows n)
      (checkWindows net' spec part client url windows n) := by
  induction windows generalizing n with
  | nil => exact Program.Alike.pure rfl
  | cons w windows ih =>
    obtain ⟨offset, len⟩ := w
    rw [checkWindows, checkWindows]
    cases part.readError offset with
    | some text => exact Program.Alike.throw rfl
    | none =>
      refine Program.Alike.bind (send_renamed h _) fun r r' hr => ?_
      cases hr with
      | error hkind => exact Program.Alike.throw (by rw [hkind, h.display])
      | @ok reply reply' hr =>
        have hstatus : reply.status = reply'.status := (congrArg (fun r : Reply => r.status) hr :)
        have hbytes : reply.bytes = reply'.bytes := (congrArg Reply.bytes hr :)
        dsimp only
        rw [hstatus, hbytes]
        refine Program.Alike.ite Iff.rfl (fun _ => ?_) fun _ => Program.Alike.pure rfl
        cases reply'.bytes with
        | error text => exact Program.Alike.throw rfl
        | ok remote =>
          dsimp only
          cases firstDifference offset (part.file.readAt offset len) remote with
          | some place => exact Program.Alike.pure rfl
          | none => exact ih _

/-- Names and content types do not change the kind of a verdict. -/
theorem validateContent_renamed (h : net.Renamed net') (hold : old.core = old'.core)
    {pr pr' : ProbeDetails} (hpr : pr.core = pr'.core) :
    Program.Alike (fun t t' => t.length = t'.length)
      (fun r r' => r.verdict.kind = r'.verdict.kind) (· = ·)
      (validateContent lib net settings spec digest part old completed downloadId pr)
      (validateContent lib net' settings spec digest part old' completed downloadId pr') := by
  have hcmp : (ResourceSignals.compare old (.fromProbe pr)).1 =
      (ResourceSignals.compare old' (.fromProbe pr')).1 := by
    rw [← compare_core, ← compare_core old', hold]
    have hsig : (ResourceSignals.fromProbe pr).core = (ResourceSignals.fromProbe pr').core :=
      (congrArg (fun p => (ResourceSignals.fromProbe p).core) hpr :)
    rw [hsig]
  have hsup : pr.rangeSupport = pr'.rangeSupport :=
    (congrArg (fun p : ProbeDetails => p.rangeSupport) hpr :)
  have hurl : pr.finalUrl = pr'.finalUrl :=
    (congrArg (fun p : ProbeDetails => p.finalUrl) hpr :)
  unfold validateContent
  dsimp only
  rw [hcmp, hsup, hurl, Client.build_congr h.proxyError h.buildError rfl]
  refine Program.Alike.ite Iff.rfl (fun _ => Program.Alike.pure ?_) fun _ => ?_
  · rw [reportOn_verdict, reportOn_verdict]
    exact kind_finalize _ _ _ _ _
  · cases Client.build net' settings spec pr'.finalUrl with
    | error error => exact Program.Alike.throw rfl
    | ok client =>
      dsimp only
      cases part.openError with
      | some text => exact Program.Alike.throw rfl
      | none =>
        refine Program.Alike.bind (checkWindows_renamed h _ 0) ?_
        rintro res _ rfl
        cases res with
        | refused offset bytes => exact Program.Alike.pure rfl
        | compared mismatch bytes =>
          refine Program.Alike.pure ?_
          rw [reportOn_verdict, reportOn_verdict]
          exact kind_finalize _ _ _ _ _

theorem validate_renamed (h : net.Renamed net') (hold : old.core = old'.core) (newUrl : String) :
    Program.Alike (fun t t' => t.length = t'.length)
      (fun r r' => r.verdict.kind = r'.verdict.kind) (· = ·)
      (validateReplacementUrl lib net naming settings spec digest part newUrl old completed
        downloadId)
      (validateReplacementUrl lib net' naming' settings spec digest part newUrl old' completed
        downloadId) :=
  Program.Alike.bind ((probe_renamed h newUrl false).mapError fun _ _ he => by rw [he])
    fun _ _ hpr => validateContent_renamed h hold hpr

end Names

end SwiftLoad
