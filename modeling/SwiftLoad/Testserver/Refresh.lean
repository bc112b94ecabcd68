import SwiftLoad.Task.Identity
import SwiftLoad.Testserver.Download

/-!
# Links to the test server that replace others

The validation of a replacement URL and the test server together: which links of the server let a
download go on.

* `details_of_probe` : what a probe learns of the size, the tag and the modification time.
* `checkWindows_served` : the windows that were not refused show the content of the new link.
* `replacement_testserver` : **which links go on, and which of them without a question.**
-/

namespace SwiftLoad

namespace Testserver

open Filename Text

/-! ### Tags -/

section Tag

variable {untilDate : Name → Option Nanos} {sc : Scenario} {tick start stop n : ℕ} {honour : Bool}
  {v : Name}

theorem visible_hex (width n : ℕ) : Visible (hex width n) := by
  have hdigit : ∀ d < 16, 32 ≤ d.digitChar.toNat ∧ d.digitChar.toNat < 127 := by decide
  have hdigits : Visible (Nat.toDigits 16 n) := by
    induction n using Nat.strongRecOn with
    | ind n ih =>
      rw [Nat.toDigits_eq_if (by decide)]
      split_ifs with hlt
      · intro c hc
        rw [List.mem_singleton.1 hc]
        exact Or.inr (hdigit n hlt)
      · refine (ih (n / 16) (by omega)).append fun c hc => ?_
        rw [List.mem_singleton.1 hc]
        exact Or.inr (hdigit _ (Nat.mod_lt _ (by decide)))
  have hzeros : ∀ k, Visible (List.replicate k '0') := fun k c hc => by
    rw [List.eq_of_mem_replicate hc]
    decide
  exact (hzeros _).append hdigits

theorem tag_quoted (h : v ∈ sc.tag tick) : ∃ w, v = '"' :: (w ++ ['"']) ∧ Visible w := by
  unfold Scenario.tag at h
  cases he : sc.etag with
  | stable =>
    rw [he] at h
    exact ⟨_, (Option.some.inj h).symm, visible_hex 16 _⟩
  | rotate =>
    rw [he] at h
    have hrot : Visible "rot-".toList := .of_all (by decide)
    exact ⟨"rot-".toList ++ hex 8 tick, (Option.some.inj h).symm, hrot.append (visible_hex 8 _)⟩
  | none =>
    rw [he] at h
    cases h

theorem toStr_tag (h : v ∈ sc.tag tick) : toStr v = some v := by
  obtain ⟨w, rfl, hw⟩ := tag_quoted h
  have hquote : Visible ['"'] := .of_all (by decide)
  exact ((hquote.append hw).append hquote).toStr

theorem parse_tag (h : v ∈ sc.tag tick) :
    Validator.parse (.ofList v) = some (.strong (.ofList v)) := by
  obtain ⟨w, rfl, -⟩ := tag_quoted h
  have htight : Tight isWhitespace ('"' :: (w ++ ['"'])) := by
    refine ⟨fun c hc => ?_, fun c hc => ?_⟩
    · obtain rfl : '"' = c := by simpa using hc
      decide
    · rw [Option.mem_def, ← List.cons_append, List.getLast?_concat] at hc
      obtain rfl := Option.some.inj hc
      decide
  have htrim : trim ('"' :: (w ++ ['"'])) = '"' :: (w ++ ['"']) := by
    simpa using ContentRange.trim_blanks ContentRange.blank_nil ContentRange.blank_nil htight
  unfold Validator.parse
  rw [String.toList_ofList, htrim]
  rfl

theorem lookup_etag :
    (sc.headers tick honour start stop).lookup "etag" = sc.tag tick := by
  unfold Scenario.headers
  cases sc.filename <;> cases sc.tag tick <;> cases sc.modified <;> cases sc.advertiseLen <;>
    cases sc.gzipAnyway <;> cases honour <;> rfl

theorem lookup_lastModified :
    (sc.headers tick honour start stop).lookup "last-modified" = sc.modified := by
  unfold Scenario.headers
  cases sc.filename <;> cases sc.tag tick <;> cases sc.modified <;> cases sc.advertiseLen <;>
    cases sc.gzipAnyway <;> cases honour <;> rfl

end Tag

/-! ### Signals -/

/-- A link of the scenario answers ranges, with the very bytes. -/
def Scenario.Honours (sc : Scenario) : Prop :=
  sc.ranges = .yes ∧ sc.gzipAnyway = false ∧ 0 < sc.size

/-- The signals that a probe of the server learns. -/
structure Learned (sc : Scenario) (tick : ℕ) (s : ResourceSignals) : Prop where
  supported : s.rangeSupport = .supported ↔ sc.Honours
  total : sc.Honours → s.totalSize = some sc.size
  etag : s.etag = (sc.tag tick).map fun v => .strong (.ofList v)
  lastModified : s.lastModified = sc.modified.map .ofList

/-- The signals of a link of the scenario do not need a question: the size is the same, and the tag
is, or there is none and the time is. -/
def Scenario.Familiar (sc : Scenario) (tick : ℕ) (old : ResourceSignals) : Prop :=
  old.totalSize = some sc.size ∧
    ((∃ v ∈ sc.tag tick, old.etag.map Validator.raw = some (.ofList v)) ∨
      old.etag = none ∧ sc.tag tick = none ∧
        ∃ date ∈ sc.modified, old.lastModified = some (.ofList date))

section Signals

variable {untilDate : Name → Option Nanos} {st st' : AppState} {sc : Scenario} {a : Answer}
  {body : List UInt8} {naming : Naming} {url : Url} {chain : List Hop} {tick : ℕ}
  {old new : ResourceSignals}

theorem learned_interpret (hfree : sc.full st = false) (hsize : sc.size ≤ u64Max)
    (h : serve st sc probeRange = (st', some a)) :
    Learned sc st.etagTick
      (.fromProbe (interpret naming (a.reply untilDate body) url chain)) := by
  obtain ⟨hsupported, htotal⟩ :=
    @interpret_reply untilDate st st' sc a body naming url chain hfree hsize h
  obtain ⟨honour, start, stop, hheaders⟩ : ∃ honour start stop,
      a.headers = sc.headers st.etagTick honour start stop := by
    cases serves h with
    | refused hfull => rw [hfree] at hfull; simp at hfull
    | unsatisfiable _ _ hnone => rw [parseRange_probeRange] at hnone; simp at hnone
    | slice => exact ⟨_, _, _, rfl⟩
    | whole => exact ⟨_, _, _, rfl⟩
  have htag : a.headers.text "etag" = sc.tag st.etagTick := by
    rw [HeaderMap.text, hheaders, lookup_etag]
    cases htag : sc.tag st.etagTick with
    | none => rfl
    | some v => exact toStr_tag htag
  have hdate : a.headers.text "last-modified" = sc.modified := by
    rw [HeaderMap.text, hheaders, lookup_lastModified]
    unfold Scenario.modified
    split_ifs
    · exact (Visible.of_all (by decide)).toStr
    · rfl
  refine ⟨hsupported, fun hh => htotal.2 ⟨hh.2.2, .inl hh.1⟩, ?_, ?_⟩
  · show ((a.headers.text "etag").map String.ofList).bind Validator.parse = _
    rw [htag]
    cases htag : sc.tag st.etagTick with
    | none => rfl
    | some v => exact parse_tag htag
  · show (a.headers.text "last-modified").map String.ofList = _
    rw [hdate]

theorem Learned.sizeMismatch_eq_none (h : Learned sc tick new) (hh : sc.Honours)
    (hn : ∀ n, old.totalSize = some n → n = sc.size) :
    ResourceSignals.sizeMismatch old new = none := by
  unfold ResourceSignals.sizeMismatch
  rw [h.total hh]
  cases ho : old.totalSize with
  | none => rfl
  | some n => exact if_pos (hn n ho)

variable (old) in
/-- The headers do not refuse a link that honours ranges and has no other size. -/
theorem Learned.compare_iff (h : Learned sc tick new) :
    ((∀ r, (ResourceSignals.compare old new).1 ≠ .reject r) ∧
      (ResourceSignals.compare old new).1 ≠ .restartOnly) ↔
      sc.Honours ∧ ∀ n, old.totalSize = some n → n = sc.size := by
  constructor
  · rintro ⟨hr, hs⟩
    have hh : sc.Honours := h.supported.1 (ResourceSignals.supported_of_compare hr hs)
    refine ⟨hh, fun n hn => ?_⟩
    by_contra hne
    have hcmp := ResourceSignals.sizeMismatch_of_ne hn (h.total hh) hne
    exact hr _ (congrArg Prod.fst hcmp)
  · rintro ⟨hh, hn⟩
    unfold ResourceSignals.compare
    rw [h.sizeMismatch_eq_none hh hn]
    simp only [h.supported.2 hh, ne_eq, not_true_eq_false, if_false]
    split_ifs <;> simp

/-- They ask no question exactly when the link is familiar. -/
theorem Learned.accepted_iff (h : Learned sc tick new) (hh : sc.Honours)
    (hn : ∀ n, old.totalSize = some n → n = sc.size) :
    ((ResourceSignals.compare old new).1 = .accept ∨
      (ResourceSignals.compare old new).1 = .verifyThenAccept) ↔ sc.Familiar tick old := by
  rw [ResourceSignals.accepted_iff (h.sizeMismatch_eq_none hh hn) (h.supported.2 hh)]
  unfold Scenario.Familiar ResourceSignals.evidence
  simp only [bothKnown_iff, h.total hh, h.etag, h.lastModified]
  have hraw : ∀ v, (Validator.strong v).raw = v := fun _ => rfl
  refine and_congr (by simp) (or_congr ?_ ?_)
  · cases old.etag <;> cases sc.tag tick <;> simp [hraw]
  · constructor
    · rintro ⟨⟨date, hold, date', hnew, heq⟩, he, ht⟩
      obtain ⟨v, hv, rfl⟩ := Option.map_eq_some_iff.1 hnew
      exact ⟨he, by simpa using ht, v, hv, of_decide_eq_true heq ▸ hold⟩
    · rintro ⟨he, ht, v, hv, hold⟩
      exact ⟨⟨_, hold, _, Option.map_eq_some_iff.2 ⟨v, hv, rfl⟩, decide_eq_true rfl⟩, he,
        by rw [ht]; rfl⟩

end Signals

/-! ### Windows -/

/-- How many bytes a body is to have. -/
def Body.len : Body → ℕ
  | .text t => t.toUTF8.toList.length
  | .stream s => s.len

/-- What comes of a request that gets a reply: an answer of the server, of whose body some has
arrived.  It can be read whole only when all of it has. -/
def Answers (untilDate : Name → Option Nanos) (sc : Scenario) (range : Option Name)
    (reply : Reply) : Prop :=
  ∃ st st' a body, serve st sc range = (st', some a) ∧ body <+: a.body.bytes ∧
    (reply.broken = none → body.length = a.body.len) ∧
    reply = { a.reply untilDate body with broken := reply.broken }

/-- The bytes of a window that a link of the scenario has. -/
def Scenario.slice (sc : Scenario) (w : ℕ × ℕ) : List UInt8 :=
  (List.range (min w.2 (sc.size - w.1))).map fun i => content sc.seed (w.1 + i)

section Windows

variable {untilDate : Name → Option Nanos} {sc : Scenario} {reply : Reply} {first len : ℕ}
  {body : List UInt8}

theorem bytes_of_whole (hmax : first + len ≤ u64Max)
    (hbody : body <+: (Body.stream { sc := sc, start := first, len := len }).bytes)
    (hlen : body.length = len) :
    body = (List.range len).map fun i => content sc.seed (first + i) := by
  have hread : (Body.stream { sc := sc, start := first, len := len }).bytes = _ :=
    BodyStream.read_eq rfl hmax (Or.inl (Nat.dvd_zero _)) (Nat.zero_le _) (Nat.le_add_left _ _)
  rw [hread] at hbody
  have hcut : sc.cut len ≤ len := Nat.min_le_left _ _
  have hle := hbody.length_le
  simp only [List.length_map, List.length_range] at hle
  have heq : sc.cut len = len := by omega
  have hbody := hbody.eq_of_length (by simp [hlen, heq])
  simpa [heq] using hbody

theorem Answers.window (h : Answers untilDate sc
      (some (rangeHeader first (first + len - 1)).2.toList) reply) (hh : sc.Honours)
    (hlen : 0 < len) (hmax : first + len ≤ u64Max) :
    (reply.status = 206 → first < sc.size) ∧
      (reply.status = 206 → reply.broken = none → reply.body = sc.slice (first, len)) ∧
      (first < sc.size → reply.status ≠ 429 → reply.status = 206) := by
  obtain ⟨st, st', a, body, hserve, hbody, hwhole, hreply⟩ := h
  have hstatus : reply.status = a.status := by rw [hreply]; rfl
  have hbytes : reply.body = body := by rw [hreply]; rfl
  have hparse := parseRange_rangeHeader (show first ≤ u64Max by omega)
    (show first + len - 1 ≤ u64Max by omega) sc.size
  rw [hstatus, hbytes]
  cases serves hserve with
  | refused => exact ⟨nofun, nofun, fun _ h => absurd rfl h⟩
  | unsatisfiable _ _ hnone =>
    refine ⟨nofun, nofun, fun hfirst => ?_⟩
    rw [hparse, if_neg (by omega)] at hnone
    cases hnone
  | slice _ _ start stop hsome =>
    rw [hparse] at hsome
    split_ifs at hsome with hout
    obtain ⟨rfl, rfl⟩ := by simpa using hsome
    have hpos := hh.2.2
    refine ⟨fun _ => by omega, fun _ hb => ?_, fun _ _ => rfl⟩
    have heq : min (first + len - 1) (sc.size - 1) + 1 - first = min len (sc.size - first) := by
      omega
    have hlength := hwhole hb
    rw [heq] at hbody hlength
    exact bytes_of_whole (by omega) hbody hlength
  | whole _ hno =>
    have hasks : asksBytes (some (rangeHeader first (first + len - 1)).2.toList) = true := by
      rw [rangeHeader_toList]
      exact List.isPrefixOf_iff_prefix.2 (List.prefix_append _ _)
    rcases hno with hno | ⟨-, hno⟩
    · exact absurd hh.1 hno
    · rw [hasks] at hno
      cases hno

end Windows

/-- The bytes of the file in a window are those of a link of the scenario. -/
def Scenario.Shows (sc : Scenario) (f : File) (w : ℕ × ℕ) : Prop :=
  w.1 < sc.size ∧ f.readAt w.1 w.2 = sc.slice w

/-- The replies after the first come from the server. -/
def Serving (untilDate : Name → Option Nanos) (sc : Scenario) (net : Net) : Prop :=
  ∀ n req reply, 0 < n → net.answer n req = .ok reply → Answers untilDate sc (rangeOf req) reply

/-- The part file can be read, after the first request nothing goes wrong on the way, and the server
is never at its cap. -/
structure Smooth (net : Net) (part : PartFile) : Prop where
  opens : part.openError = none
  reads : ∀ offset, part.readError offset = none
  replies : ∀ n req, 0 < n → ∃ reply, net.answer n req = .ok reply ∧ reply.broken = none ∧
    reply.status ≠ 429

/-- The window is not empty and lies within the offsets. -/
def Sensible (w : ℕ × ℕ) : Prop := 0 < w.2 ∧ w.1 + w.2 ≤ u64Max

section Check

variable {untilDate : Name → Option Nanos} {sc : Scenario} {net : Net} {spec : RequestSpec}
  {part : PartFile} {client : Client} {url : Url}

/-- A window that arrives is the same as in the file when the file has the bytes of the link. -/
theorem Answers.same_iff {reply : Reply} {first len : ℕ} {remote : List UInt8}
    (h : Answers untilDate sc (some (rangeHeader first (first + len - 1)).2.toList) reply)
    (hh : sc.Honours) (hw : Sensible (first, len)) (hstatus : reply.status = 206)
    (hbytes : reply.bytes = .ok remote) (f : File) :
    firstDifference first (f.readAt first len) remote = none ↔ sc.Shows f (first, len) := by
  obtain ⟨hfirst, hbody, -⟩ := h.window hh hw.1 hw.2
  obtain ⟨hwhole, rfl⟩ := Reply.bytes_eq_ok.1 hbytes
  rw [firstDifference_eq_none, hbody hstatus hwhole]
  exact ⟨fun heq => ⟨hfirst hstatus, heq.symm⟩, fun hshows => hshows.2.symm⟩

/-- The server answers a request for a window, and with all of it when nothing goes wrong. -/
theorem send_served {E : RefreshError → List Exchange → Prop} (part : PartFile)
    (hserving : Serving untilDate sc net) (hspec : ∀ h ∈ spec.headers, isRange h.1 = false)
    (first len : ℕ) :
    Program.Triple (fun t => 0 < t.length) (net.send (windowRequest client spec url first len))
      (fun r t => ((∀ reply, r = .ok reply →
          Answers untilDate sc (some (rangeHeader first (first + len - 1)).2.toList) reply) ∧
        (Smooth net part → ∃ reply, r = .ok reply ∧ reply.broken = none ∧ reply.status ≠ 429)) ∧
          0 < t.length) E := by
  refine Program.Triple.modifyGet fun t ht => ⟨⟨fun reply hr => ?_, fun h => ?_⟩, by simp⟩
  · have hanswer := hserving _ _ reply ht hr
    rwa [rangeOf_applySpec hspec rfl] at hanswer
  · exact h.replies _ _ ht

/-- No window differs only when the file has the bytes of the link in all of them; and exactly then
when nothing goes wrong. -/
theorem checkWindows_served (hserving : Serving untilDate sc net) (hh : sc.Honours)
    (hspec : ∀ h ∈ spec.headers, isRange h.1 = false) (windows : List (ℕ × ℕ))
    (hw : ∀ w ∈ windows, Sensible w) (n : ℕ) :
    Program.Triple (fun t => 0 < t.length) (checkWindows net spec part client url windows n)
      (fun res _ => ((∃ bytes, res = .compared none bytes) → ∀ w ∈ windows, sc.Shows part.file w) ∧
        (Smooth net part → (∀ w ∈ windows, sc.Shows part.file w) →
          ∃ bytes, res = .compared none bytes))
      (fun _ _ => ¬Smooth net part) := by
  induction windows generalizing n with
  | nil => exact Program.Triple.pure fun t _ => ⟨by simp, fun _ _ => ⟨_, rfl⟩⟩
  | cons w windows ih =>
    obtain ⟨first, len⟩ := w
    have hsensible : Sensible (first, len) := hw _ List.mem_cons_self
    rw [checkWindows]
    cases hread : part.readError first with
    | some text =>
      refine Program.Triple.throw fun _ _ h => ?_
      rw [h.reads] at hread
      cases hread
    | none =>
      refine Program.Triple.bind (send_served part hserving hspec first len) fun r => ?_
      refine Program.Triple.of_and fun hr => ?_
      obtain ⟨hanswers, hsmooth⟩ := hr
      cases r with
      | error kind =>
        refine Program.Triple.throw fun _ _ h => ?_
        obtain ⟨reply, hr, -⟩ := hsmooth h
        cases hr
      | ok reply =>
        have hanswers := hanswers reply rfl
        have hcalm : Smooth net part → reply.broken = none ∧ reply.status ≠ 429 := fun h => by
          obtain ⟨_, hr, hb⟩ := hsmooth h
          cases hr
          exact hb
        refine Program.Triple.ite (fun hstatus => ?_) fun hstatus => ?_
        · cases hbytes : reply.bytes with
          | error text =>
            refine Program.Triple.throw fun _ _ h => ?_
            rw [Reply.bytes_eq_ok.2 ⟨(hcalm h).1, rfl⟩] at hbytes
            cases hbytes
          | ok remote =>
            have hsame := hanswers.same_iff hh hsensible hstatus hbytes part.file
            dsimp only
            cases hdiff : firstDifference first (part.file.readAt first len) remote with
            | some place =>
              refine Program.Triple.pure fun _ _ => ⟨fun h => ?_, fun _ hall => ?_⟩
              · obtain ⟨_, h⟩ := h
                cases h
              · rw [hsame.2 (hall _ List.mem_cons_self)] at hdiff
                cases hdiff
            | none =>
              refine (ih (fun v hv => hw v (List.mem_cons_of_mem _ hv)) _).conseq (fun _ h => h)
                (fun res t h => ⟨fun hres => ?_, fun hs hall => ?_⟩) fun _ _ h => h
              · exact List.forall_mem_cons.2 ⟨hsame.1 hdiff, h.1 hres⟩
              · exact h.2 hs (List.forall_mem_cons.1 hall).2
        · -- a server that is not at its cap refuses no window that the link has
          refine Program.Triple.pure fun _ _ => ⟨fun h => ?_, fun h hall => ?_⟩
          · obtain ⟨_, h⟩ := h
            cases h
          · have hgood := (hanswers.window hh hsensible.1 hsensible.2).2.2
            exact absurd (hgood (hall _ List.mem_cons_self).1 (hcalm h).2) hstatus

end Check

/-! ### Verdicts -/

/-- A link of the scenario fits what is known of the resource and what is on disk. -/
structure Scenario.Fits (sc : Scenario) (old : ResourceSignals) (f : File)
    (windows : List (ℕ × ℕ)) : Prop where
  honours : sc.Honours
  size : ∀ n, old.totalSize = some n → n = sc.size
  shows : ∀ w ∈ windows, sc.Shows f w

/-- A verdict about a link that is to go on when it `fits`, without a question when it is
`familiar`. -/
structure Judges (smooth fits familiar : Prop) (v : Verdict) : Prop where
  sound : v.goesOn = true → fits
  complete : smooth → fits → v.goesOn = true
  resumes : (∃ ev, v = .resume ev) ↔ v.goesOn = true ∧ familiar

section Verdicts

variable {smooth fits familiar : Prop} {pre : Preliminary} {ev : Evidence} {mismatch : Option ℕ}
  {n : ℕ}

theorem goesOn_finalize_iff : (finalize pre ev mismatch n).goesOn = true ↔
    mismatch = none ∧ (∀ r, pre ≠ .reject r) ∧ pre ≠ .restartOnly := by
  refine ⟨goesOn_finalize, ?_⟩
  rintro ⟨rfl, hr, hs⟩
  cases pre <;> simp_all [finalize, Verdict.goesOn, Verdict.kind]

theorem resume_finalize_iff : (∃ ev', finalize pre ev mismatch n = .resume ev') ↔
    mismatch = none ∧ (pre = .accept ∨ pre = .verifyThenAccept) := by
  cases mismatch <;> cases pre <;> simp [finalize]

theorem judges_reject (h : smooth → ¬fits) (r : RejectReason) :
    Judges smooth fits familiar (.reject r) where
  sound := nofun
  complete hs hf := absurd hf (h hs)
  resumes := by simp [Verdict.goesOn, Verdict.kind]

/-- The final decision judges rightly when the headers and the content do. -/
theorem judges_finalize {headers : Prop}
    (hheaders : (∀ r, pre ≠ .reject r) ∧ pre ≠ .restartOnly ↔ headers)
    (haccept : headers → ((pre = .accept ∨ pre = .verifyThenAccept) ↔ familiar))
    (hsound : mismatch = none → headers → fits) (hfits : fits → headers)
    (hcomplete : smooth → fits → mismatch = none) :
    Judges smooth fits familiar (finalize pre ev mismatch n) where
  sound h := by
    obtain ⟨hm, hpre⟩ := goesOn_finalize_iff.1 h
    exact hsound hm (hheaders.1 hpre)
  complete hs hf := goesOn_finalize_iff.2 ⟨hcomplete hs hf, hheaders.2 (hfits hf)⟩
  resumes := by
    rw [resume_finalize_iff, goesOn_finalize_iff, hheaders]
    constructor
    · rintro ⟨hm, hpre⟩
      have hh : headers := hheaders.1 (by rcases hpre with rfl | rfl <;> exact ⟨nofun, nofun⟩)
      exact ⟨⟨hm, hh⟩, (haccept hh).1 hpre⟩
    · rintro ⟨⟨hm, hh⟩, hf⟩
      exact ⟨hm, (haccept hh).2 hf⟩

end Verdicts

section Validate

variable {untilDate : Name → Option Nanos} {sc : Scenario} {tick : ℕ} {lib : UrlLib} {net : Net}
  {naming : Naming} {settings : Settings} {spec : RequestSpec}
  {digest : List UInt8 → List UInt8} {part : PartFile} {client : Client} {url : Url}
  {old : ResourceSignals} {completed : RangeSet} {downloadId : String} {pr : ProbeDetails}

variable (lib digest part old downloadId) in
theorem validateContent_served (hl : Learned sc tick (.fromProbe pr))
    (hserving : Serving untilDate sc net) (hspec : ∀ h ∈ spec.headers, isRange h.1 = false)
    (hbuild : Client.build net settings spec pr.finalUrl = .ok client) (hc : completed.Ordered)
    (hends : completed.endPos ≤ u64Max) :
    Program.Triple (fun t => 0 < t.length)
      (validateContent lib net settings spec digest part old completed downloadId pr)
      (fun report _ => Judges (Smooth net part)
        (sc.Fits old part.file (chooseWindows digest completed downloadId windowCount))
        (sc.Familiar tick old) report.verdict)
      (fun _ _ => ¬Smooth net part) := by
  have hheaders := hl.compare_iff old
  unfold validateContent
  refine Program.Triple.ite (fun hver => Program.Triple.pure fun t _ => ?_) fun hver => ?_
  · rw [reportOn_verdict]
    refine judges_finalize hheaders (fun h => hl.accepted_iff h.1 h.2) (fun _ h => ?_)
      (fun h => ⟨h.honours, h.size⟩) fun _ _ => rfl
    -- nothing is verified although the headers do not refuse: there is nothing on disk
    have htotal : completed.total = 0 := by
      by_contra hne
      obtain ⟨hr, hs⟩ := hheaders.2 h
      have hsup : pr.rangeSupport = .supported := hl.supported.2 h.1
      rw [verifiable_eq_true (Nat.pos_of_ne_zero hne) hsup hr hs] at hver
      cases hver
    refine ⟨h.1, h.2, fun w hw => ?_⟩
    rw [chooseWindows, if_pos htotal] at hw
    cases hw
  · have hh : sc.Honours := by
      have hsup : pr.rangeSupport = .supported := by
        by_contra hne
        exact hver (by simp [verifiable, hne])
      exact hl.supported.1 hsup
    have hsensible : ∀ w ∈ chooseWindows digest completed downloadId windowCount, Sensible w :=
      fun w hw => ⟨(chooseWindows_le hc w hw).1, (chooseWindows_le hc w hw).2.trans hends⟩
    rw [hbuild]
    dsimp only
    cases hopen : part.openError with
    | some text =>
      refine Program.Triple.throw fun _ _ h => ?_
      rw [h.opens] at hopen
      cases hopen
    | none =>
      refine Program.Triple.bind (checkWindows_served hserving hh hspec _ hsensible 0) fun res => ?_
      cases res with
      | refused offset bytes =>
        refine Program.Triple.pure fun t ht => judges_reject (fun hs hf => ?_) _
        obtain ⟨_, hres⟩ := ht.2 hs hf.shows
        cases hres
      | compared mismatch bytes =>
        refine Program.Triple.pure fun t ht => ?_
        refine judges_finalize hheaders (fun h => hl.accepted_iff h.1 h.2) (fun hm h => ?_)
          (fun h => ⟨h.honours, h.size⟩) fun hs hf => ?_
        · exact ⟨h.1, h.2, ht.1 ⟨bytes, by rw [hm]⟩⟩
        · obtain ⟨_, hres⟩ := ht.2 hs hf.shows
          cases hres
          rfl

variable {st : AppState} {raw : String}

/-- **Links that replace others.**  When a replacement URL leads to the server, the download goes on
with it only if the link honours ranges, has no other size than the one that is known, and has the
bytes of the part file in every window; and it asks no question exactly when moreover the size is
known and the tag is the same, or the time where there are no tags.  If nothing goes wrong, these
links are never refused. -/
theorem replacement_testserver (hurl : validateUrl lib raw = .ok url)
    (hclient : Client.build net settings spec url = .ok client)
    (hspec : ∀ h ∈ spec.headers, isRange h.1 = false) (hnet : ServedBy untilDate st sc net)
    (hserving : Serving untilDate sc net) (hsize : sc.size ≤ u64Max) (hc : completed.Ordered)
    (hends : completed.endPos ≤ u64Max) :
    (∀ report, ((validateReplacementUrl lib net naming settings spec digest part raw old completed
        downloadId).runFrom []).1 = .ok report →
      (report.verdict.goesOn = true →
        sc.Fits old part.file (chooseWindows digest completed downloadId windowCount)) ∧
      ((∃ ev, report.verdict = .resume ev) ↔
        report.verdict.goesOn = true ∧ sc.Familiar st.etagTick old)) ∧
    (sc.full st = false → Smooth net part →
      ∃ report, ((validateReplacementUrl lib net naming settings spec digest part raw old completed
          downloadId).runFrom []).1 = .ok report ∧
        (sc.Fits old part.file (chooseWindows digest completed downloadId windowCount) →
          report.verdict.goesOn = true)) := by
  obtain ⟨st', a, body, x, hserve, hrun⟩ := runFrom_probe naming false hurl hclient hspec hnet
  rw [success_reply hserve] at hrun
  have hbind : (validateReplacementUrl lib net naming settings spec digest part raw old completed
      downloadId).runFrom [] = _ := Program.runFrom_bind _ _ _
  rw [Program.runFrom_mapError, hrun] at hbind
  rw [hbind]
  cases hfull : sc.full st with
  | true =>
    simp only [Bool.not_true, Bool.false_eq_true, if_false, reduceCtorEq, false_implies,
      implies_true, and_self]
  | false =>
    have hl : Learned sc st.etagTick
        (.fromProbe (interpret naming (a.reply untilDate body) url [])) :=
      learned_interpret hfull hsize hserve
    have hbuild : Client.build net settings spec
        (interpret naming (a.reply untilDate body) url []).finalUrl = .ok client := hclient
    simp only [Bool.not_false, if_true]
    generalize interpret naming (a.reply untilDate body) url [] = pr at hl hbuild ⊢
    have hjudged := validateContent_served lib digest part old downloadId hl hserving hspec hbuild
      hc hends [x] Nat.one_pos
    generalize (validateContent lib net settings spec digest part old completed downloadId
      pr).runFrom [x] = out at hjudged ⊢
    obtain ⟨error | report, t⟩ := out
    · simp only [reduceCtorEq, false_implies, implies_true, true_and]
      exact fun _ hs => absurd hs hjudged
    · refine ⟨fun report' h => ?_, fun _ hs => ⟨report, rfl, hjudged.complete hs⟩⟩
      obtain rfl := Except.ok.inj h
      exact ⟨hjudged.sound, hjudged.resumes⟩

end Validate

/-! ### The same content again -/

section Same

variable {untilDate : Name → Option Nanos} {sc : Scenario} {st : AppState} {f : File} {w : ℕ × ℕ}
  {old : ResourceSignals} {completed : RangeSet} {part : PartFile}

theorem Scenario.shows_iff (hpos : 0 < w.2) (hsize : w.1 + w.2 ≤ sc.size)
    (hlen : w.1 + w.2 ≤ f.len) :
    sc.Shows f w ↔ ∀ b, w.1 ≤ b → b < w.1 + w.2 → f.data b = content sc.seed b := by
  have hread : f.readAt w.1 w.2 = (List.range w.2).map fun i => f.data (w.1 + i) := by
    rw [File.readAt, Nat.min_eq_left (by omega)]
  have hslice : sc.slice w = (List.range w.2).map fun i => content sc.seed (w.1 + i) := by
    rw [Scenario.slice, Nat.min_eq_left (by omega)]
  unfold Scenario.Shows
  rw [hread, hslice, List.map_inj_left]
  constructor
  · rintro ⟨-, h⟩ b hb hlt
    have hb' := h (b - w.1) (List.mem_range.2 (by omega))
    rwa [Nat.add_sub_cancel' hb] at hb'
  · intro h
    exact ⟨by omega, fun i hi => h _ (by omega) (by have := List.mem_range.1 hi; omega)⟩

/-- A link to the content that the part file holds fits, as long as the windows lie inside what was
downloaded. -/
theorem Scenario.Fits.of_content {digest : List UInt8 → List UInt8} {downloadId : String}
    (hh : sc.Honours) (hn : ∀ n, old.totalSize = some n → n = sc.size) (hc : completed.Ordered)
    (hends : completed.endPos ≤ sc.size)
    (hin : ∀ w ∈ chooseWindows digest completed downloadId windowCount,
      completed.containsAll w.1 (w.1 + w.2) = true)
    (hf : completed.endPos ≤ f.len ∧ ∀ b ∈ completed.covered, f.data b = content sc.seed b) :
    sc.Fits old f (chooseWindows digest completed downloadId windowCount) := by
  refine ⟨hh, hn, fun w hw => ?_⟩
  obtain ⟨hpos, hle⟩ := chooseWindows_le hc w hw
  refine (Scenario.shows_iff hpos (hle.trans hends) (hle.trans hf.1)).2 fun b hb hlt => hf.2 b ?_
  exact RangeSet.Ico_subset_of_containsAll (hin w hw) ⟨hb, hlt⟩

theorem Scenario.cut_eq (hreset : sc.resetAt = none) (hstall : sc.stallAfter = none) (len : ℕ) :
    sc.cut len = len := by
  simp [Scenario.cut, hreset, hstall]

theorem serving_serverNet (hreset : sc.resetAt = none) (hstall : sc.stallAfter = none)
    (hsize : sc.size < u64Max) : Serving untilDate sc (serverNet untilDate st sc) := by
  intro n req reply _ hreply
  rcases hserve : serve st sc (rangeOf req) with ⟨st', _ | a⟩
  · unfold serverNet at hreply
    simp only [hserve, reduceCtorEq] at hreply
  · rw [answer_serverNet hserve] at hreply
    obtain rfl := Except.ok.inj hreply
    have hwhole : ∀ start len, start + len ≤ u64Max →
        (Body.stream { sc := sc, start := start, len := len }).bytes.length = len := by
      intro start len hmax
      have hread : (Body.stream { sc := sc, start := start, len := len }).bytes = _ :=
        BodyStream.read_eq rfl hmax (Or.inl (Nat.dvd_zero _)) (Nat.zero_le _) (Nat.le_add_left _ _)
      rw [hread]
      simp [Scenario.cut_eq hreset hstall]
    refine ⟨st, st', a, a.body.bytes, hserve, List.prefix_rfl, fun _ => ?_, rfl⟩
    cases serves hserve with
    | refused => rfl
    | unsatisfiable => rfl
    | slice _ _ start stop hsome =>
      have hle := parseRange_bounds hsome
      exact hwhole _ _ (by omega)
    | whole => exact hwhole _ _ (by omega)

theorem smooth_serverNet (hname : sc.filename.all headerValue = true) (hfree : sc.full st = false)
    (hopen : part.openError = none) (hread : ∀ offset, part.readError offset = none) :
    Smooth (serverNet untilDate st sc) part := by
  refine ⟨hopen, hread, fun n req _ => ?_⟩
  obtain ⟨st', a, ha⟩ : ∃ st' a, serve st sc (rangeOf req) = (st', some a) :=
    exists_answer hname _
  refine ⟨a.reply untilDate a.body.bytes, answer_serverNet ha n, rfl, ?_⟩
  show a.status ≠ 429
  cases serves ha with
  | refused hfull => rw [hfree] at hfull; cases hfull
  | unsatisfiable => exact show (416 : ℕ) ≠ 429 by decide
  | slice => exact show (206 : ℕ) ≠ 429 by decide
  | whole => exact show (200 : ℕ) ≠ 429 by decide

end Same

/-- A part file with the first of the two bytes. -/
def tinyPart : PartFile where
  file := ⟨2, content 1⟩

/-- The server of them is not refused. -/
theorem replacement_testserver_tiny :
    ∃ report, ((validateReplacementUrl plainLib (serverNet (fun _ => none) {} tinyScenario)
        (fun _ _ _ => ['a']) {} {} id tinyPart "http://localhost/f" { totalSize := some 2 }
        ⟨[(0, 1)]⟩ "id").runFrom []).1 = .ok report ∧ report.verdict.goesOn = true := by
  have hfits : tinyScenario.Fits { totalSize := some 2 } tinyPart.file
      (chooseWindows id ⟨[(0, 1)]⟩ "id" windowCount) :=
    .of_content ⟨rfl, rfl, by decide⟩ (fun n hn => (Option.some.inj hn).symm) (by decide)
      (by decide) (by decide) ⟨by decide, fun _ _ => rfl⟩
  obtain ⟨-, h⟩ := @replacement_testserver (fun _ => none) tinyScenario plainLib
    (serverNet (fun _ => none) {} tinyScenario) (fun _ _ _ => ['a']) {} {} id tinyPart _ _
    { totalSize := some 2 } ⟨[(0, 1)]⟩ "id" {} "http://localhost/f" rfl rfl
    (fun _ hh => absurd hh List.not_mem_nil) (servedBy_serverNet rfl)
    (serving_serverNet rfl rfl (by decide)) (by decide) (by decide) (by decide)
  obtain ⟨report, hrun, hgo⟩ := h rfl (smooth_serverNet rfl rfl rfl fun _ => rfl)
  exact ⟨report, hrun, hgo hfits⟩

end Testserver

end SwiftLoad
