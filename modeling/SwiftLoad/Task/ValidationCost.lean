import SwiftLoad.Task.Identity

/-!
# What a validation costs

The content check of a replacement URL has a budget of four windows of 64 KiB, and its report says
how many bytes arrived and how many windows were compared.  How long a body is, the server decides.

* `receivedBytes`, `comparedWindows` : what the exchanges for the windows say.
* `Asked` : a window whose turn came, with the reply to it.
* `checkWindows_tallies_iff` : the loop over the windows, by induction on what is left of them.
* `cost_truthful_iff` : **when a validation stays within its budget and reports its cost.**
-/

namespace SwiftLoad

/-- What arrives of the body of a window.  A reply that is no partial response is dropped unread. -/
def Exchange.contentBytes (x : Exchange) : ℕ :=
  match x.answer with
  | .ok reply => if reply.status = 206 then reply.body.length else 0
  | .error _ => 0

/-- The body arrived whole, and so was compared with what is on disk. -/
def Exchange.isCompared (x : Exchange) : Bool :=
  match x.answer with
  | .ok reply => decide (reply.status = 206) && reply.broken.isNone
  | .error _ => false

/-- The bytes of window content that arrived. -/
def receivedBytes (content : List Exchange) : ℕ := (content.map Exchange.contentBytes).sum

/-- The windows whose body was compared. -/
def comparedWindows (content : List Exchange) : ℕ := content.countP Exchange.isCompared

/-- The budget is kept, and a report tells the bytes that arrived and the windows that were
compared. -/
structure CostTruthful (outcome : Except RefreshError ValidationReport)
    (content : List Exchange) : Prop where
  budget : receivedBytes content ≤ windowCount * windowLen
  bytes : ∀ report, outcome = .ok report → report.bytesVerified = receivedBytes content
  windows : ∀ report, outcome = .ok report → report.windowsChecked = comparedWindows content

/-- The bytes of some windows on disk. -/
def bytesOnDisk (part : PartFile) (windows : List (ℕ × ℕ)) : ℕ :=
  (windows.map fun w => (part.file.readAt w.1 w.2).length).sum

section

variable (net : Net) (spec : RequestSpec) (part : PartFile) (client : Client) (url : Url)

/-- The turn of a window comes, and this is the reply: the windows before it were confirmed, from
the `n`-th request on. -/
inductive Asked : ℕ → List (ℕ × ℕ) → List (ℕ × ℕ) → ℕ × ℕ → List (ℕ × ℕ) → Reply → Prop
  | here {n : ℕ} {w : ℕ × ℕ} {after : List (ℕ × ℕ)} {reply : Reply}
      (hread : part.readError w.1 = none)
      (hans : net.answer n (windowRequest client spec url w.1 w.2) = .ok reply) :
      Asked n (w :: after) [] w after reply
  | later {n : ℕ} {v w : ℕ × ℕ} {windows before after : List (ℕ × ℕ)} {r reply : Reply}
      (hread : part.readError v.1 = none)
      (hans : net.answer n (windowRequest client spec url v.1 v.2) = .ok r)
      (hstatus : r.status = 206) (hbytes : r.bytes = .ok (part.file.readAt v.1 v.2))
      (h : Asked (n + 1) windows before w after reply) :
      Asked n (v :: windows) (v :: before) w after reply

/-- The replies that a truthful report takes, when so many bytes of so many windows have been
compared before. -/
structure FairReplies (n received compared : ℕ) (windows : List (ℕ × ℕ)) : Prop where
  /-- A refusal comes when there are as many bytes as windows so far. -/
  refusal : ∀ before w after reply, Asked net spec part client url n windows before w after reply →
    reply.status ≠ 206 → received + bytesOnDisk part before = compared + before.length
  /-- No body is too long. -/
  fits : ∀ before w after reply, Asked net spec part client url n windows before w after reply →
    reply.status = 206 →
      received + bytesOnDisk part before + reply.body.length ≤ windowCount * windowLen
  /-- Only the last window differs. -/
  difference : ∀ before w after reply,
    Asked net spec part client url n windows before w after reply → reply.status = 206 →
      ∀ remote, reply.bytes = .ok remote → remote ≠ part.file.readAt w.1 w.2 → after = []

end

variable {lib : UrlLib} {net : Net} {naming : Naming} {settings : Settings} {spec : RequestSpec}
  {digest : List UInt8 → List UInt8} {part : PartFile} {client : Client} {url : Url}
  {old : ResourceSignals} {completed : RangeSet} {downloadId : String}
  {n received compared total : ℕ} {w : ℕ × ℕ} {windows : List (ℕ × ℕ)} {reply : Reply}

/-! ### The windows -/

theorem length_dedup_le (l : List ℕ) : (dedup l).length ≤ l.length := by
  induction l using dedup.induct with
  | case1 => exact le_rfl
  | case2 => exact le_rfl
  | case3 b rest ih =>
    rw [dedup, if_pos rfl]
    exact ih.trans (Nat.le_succ _)
  | case4 a b rest hne ih =>
    rw [dedup, if_neg hne, List.length_cons, List.length_cons (a := a)]
    exact Nat.succ_le_succ ih

/-- There are no more windows than asked for, but for the two at the ends. -/
theorem length_chooseWindows_le (digest : List UInt8 → List UInt8) (completed : RangeSet)
    (downloadId : String) {count : ℕ} (hcount : 2 ≤ count) :
    (chooseWindows digest completed downloadId count).length ≤ count := by
  by_cases htotal : completed.total = 0
  · rw [chooseWindows, if_pos htotal]
    exact Nat.zero_le _
  · rw [chooseWindows_eq htotal, List.length_map]
    refine (length_dedup_le _).trans ?_
    rw [List.length_insertionSort, List.length_map, logicalPicks]
    split_ifs
    · rw [List.length_cons, List.length_cons, List.length_map, List.length_range]
      omega
    · exact (Nat.le_succ 1).trans hcount

theorem le_windowLen_of_mem {count : ℕ}
    (hw : w ∈ chooseWindows digest completed downloadId count) : w.2 ≤ windowLen := by
  by_cases htotal : completed.total = 0
  · rw [chooseWindows, if_pos htotal] at hw
    cases hw
  · obtain ⟨x, -, rfl⟩ := (mem_chooseWindows htotal).1 hw
    exact min_le_left _ _

theorem length_readAt_le (f : File) (offset len : ℕ) : (f.readAt offset len).length ≤ len := by
  rw [File.readAt, List.length_map, List.length_range]
  exact min_le_left _ _

/-! ### The loop -/

@[simp] theorem bytesOnDisk_nil (part : PartFile) : bytesOnDisk part [] = 0 := rfl

@[simp] theorem bytesOnDisk_cons (part : PartFile) (offset len : ℕ) (windows : List (ℕ × ℕ)) :
    bytesOnDisk part ((offset, len) :: windows) =
      (part.file.readAt offset len).length + bytesOnDisk part windows := rfl

@[simp] theorem receivedBytes_nil : receivedBytes [] = 0 := rfl

@[simp] theorem receivedBytes_cons (x : Exchange) (content : List Exchange) :
    receivedBytes (x :: content) = x.contentBytes + receivedBytes content := rfl

@[simp] theorem comparedWindows_nil : comparedWindows [] = 0 := rfl

theorem comparedWindows_cons (x : Exchange) (content : List Exchange) :
    comparedWindows (x :: content) = comparedWindows content + if x.isCompared then 1 else 0 :=
  List.countP_cons

/-- Where the turn of the next window does not come, or there is no reply, all replies are fair. -/
theorem fair_of_silent (h : ∀ before v after reply,
    ¬Asked net spec part client url n windows before v after reply) :
    FairReplies net spec part client url n received compared windows :=
  ⟨fun _ _ _ _ hasked => absurd hasked (h _ _ _ _),
    fun _ _ _ _ hasked => absurd hasked (h _ _ _ _),
    fun _ _ _ _ hasked => absurd hasked (h _ _ _ _)⟩

theorem fair_cons_iff {offset len : ℕ} (hread : part.readError offset = none)
    (hans : net.answer n (windowRequest client spec url offset len) = .ok reply) :
    FairReplies net spec part client url n received compared ((offset, len) :: windows) ↔
      (reply.status ≠ 206 → received = compared) ∧
      (reply.status = 206 → received + reply.body.length ≤ windowCount * windowLen) ∧
      (reply.status = 206 → ∀ remote, reply.bytes = .ok remote →
        remote ≠ part.file.readAt offset len → windows = []) ∧
      (reply.status = 206 → reply.bytes = .ok (part.file.readAt offset len) →
        FairReplies net spec part client url (n + 1)
          (received + (part.file.readAt offset len).length) (compared + 1) windows) := by
  constructor
  · rintro ⟨hrefusal, hfits, hdiff⟩
    refine ⟨fun hs => ?_, fun hs => ?_, hdiff _ _ _ _ (.here hread hans), fun hs hb => ?_⟩
    · exact hrefusal _ _ _ _ (.here hread hans) hs
    · exact hfits _ _ _ _ (.here hread hans) hs
    · refine ⟨fun before v after r h hr => ?_, fun before v after r h hr => ?_,
        fun before v after r h => hdiff _ _ _ _ (.later hread hans hs hb h)⟩
      · have := hrefusal _ _ _ _ (.later hread hans hs hb h) hr
        rw [bytesOnDisk_cons, List.length_cons] at this
        omega
      · have := hfits _ _ _ _ (.later hread hans hs hb h) hr
        rw [bytesOnDisk_cons] at this
        omega
  · rintro ⟨hrefusal, hfits, hdiff, hrest⟩
    refine ⟨fun before v after r h hr => ?_, fun before v after r h hr => ?_,
      fun before v after r h hr => ?_⟩
    · cases h with
      | here _ hans' =>
        obtain rfl := Except.ok.inj (hans.symm.trans hans')
        exact hrefusal hr
      | later _ hans' hs hb h =>
        obtain rfl := Except.ok.inj (hans.symm.trans hans')
        have := (hrest hs hb).refusal _ _ _ _ h hr
        rw [bytesOnDisk_cons, List.length_cons]
        omega
    · cases h with
      | here _ hans' =>
        obtain rfl := Except.ok.inj (hans.symm.trans hans')
        exact hfits hr
      | later _ hans' hs hb h =>
        obtain rfl := Except.ok.inj (hans.symm.trans hans')
        have := (hrest hs hb).fits _ _ _ _ h hr
        rw [bytesOnDisk_cons]
        omega
    · cases h with
      | here _ hans' =>
        obtain rfl := Except.ok.inj (hans.symm.trans hans')
        exact hdiff hr
      | later _ hans' hs hb h =>
        obtain rfl := Except.ok.inj (hans.symm.trans hans')
        exact (hrest hs hb).difference _ _ _ _ h hr

theorem Reply.bytes_of_broken {text : String} (h : reply.broken = some text) :
    reply.bytes = .error text := by
  rw [Reply.bytes, h, Option.elim_some]

theorem Reply.bytes_of_whole (h : reply.broken = none) : reply.bytes = .ok reply.body := by
  rw [Reply.bytes, h, Option.elim_none]

/-- A refusal is fair when there are as many bytes as windows so far. -/
theorem fair_refused_iff {offset len : ℕ} (hread : part.readError offset = none)
    (hans : net.answer n (windowRequest client spec url offset len) = .ok reply)
    (hstatus : reply.status ≠ 206) :
    FairReplies net spec part client url n received compared ((offset, len) :: windows) ↔
      received = compared := by
  rw [fair_cons_iff hread hans]
  simp [hstatus]

theorem fair_broken_iff {offset len : ℕ} (hread : part.readError offset = none)
    (hans : net.answer n (windowRequest client spec url offset len) = .ok reply)
    (hstatus : reply.status = 206) {text : String} (hbroken : reply.broken = some text) :
    FairReplies net spec part client url n received compared ((offset, len) :: windows) ↔
      received + reply.body.length ≤ windowCount * windowLen := by
  rw [fair_cons_iff hread hans, Reply.bytes_of_broken hbroken]
  simp [hstatus]

theorem fair_differs_iff {offset len : ℕ} (hread : part.readError offset = none)
    (hans : net.answer n (windowRequest client spec url offset len) = .ok reply)
    (hstatus : reply.status = 206) (hwhole : reply.broken = none)
    (hne : reply.body ≠ part.file.readAt offset len) :
    FairReplies net spec part client url n received compared ((offset, len) :: windows) ↔
      received + reply.body.length ≤ windowCount * windowLen ∧ windows = [] := by
  rw [fair_cons_iff hread hans, Reply.bytes_of_whole hwhole]
  simp [hstatus, hne]

theorem fair_confirmed_iff {offset len : ℕ} (hread : part.readError offset = none)
    (hans : net.answer n (windowRequest client spec url offset len) = .ok reply)
    (hstatus : reply.status = 206) (hwhole : reply.broken = none)
    (heq : reply.body = part.file.readAt offset len)
    (hfits : received + reply.body.length ≤ windowCount * windowLen) :
    FairReplies net spec part client url n received compared ((offset, len) :: windows) ↔
      FairReplies net spec part client url (n + 1) (received + reply.body.length) (compared + 1)
        windows := by
  rw [fair_cons_iff hread hans, Reply.bytes_of_whole hwhole, heq]
  rw [heq] at hfits
  simp [hstatus, hfits]

/-- The loop goes on from so many bytes of so many windows out of `total`, and the report on its
end is right. -/
structure Tallies (total received compared : ℕ) (outcome : Except RefreshError WindowsEnd)
    (content : List Exchange) : Prop where
  budget : received + receivedBytes content ≤ windowCount * windowLen
  /-- All windows are reported as checked. -/
  whole : ∀ mismatch bytes, outcome = .ok (.compared mismatch bytes) →
    bytes = received + receivedBytes content ∧ total = compared + comparedWindows content
  /-- The bytes are reported as windows. -/
  refused : ∀ offset bytes, outcome = .ok (.refused offset bytes) →
    bytes = received + receivedBytes content ∧ bytes = compared + comparedWindows content

theorem tallies_error {error : RefreshError} {content : List Exchange} :
    Tallies total received compared (.error error) content ↔
      received + receivedBytes content ≤ windowCount * windowLen :=
  ⟨Tallies.budget, fun h => ⟨h, fun _ _ he => (by cases he), fun _ _ he => (by cases he)⟩⟩

theorem tallies_compared {mismatch : Option ℕ} {bytes : ℕ} {content : List Exchange} :
    Tallies total received compared (.ok (.compared mismatch bytes)) content ↔
      received + receivedBytes content ≤ windowCount * windowLen ∧
        bytes = received + receivedBytes content ∧ total = compared + comparedWindows content := by
  refine ⟨fun h => ⟨h.budget, h.whole _ _ rfl⟩, fun h => ⟨h.1, ?_, fun _ _ he => by cases he⟩⟩
  rintro _ _ ⟨⟩
  exact h.2

theorem tallies_refused {offset bytes : ℕ} {content : List Exchange} :
    Tallies total received compared (.ok (.refused offset bytes)) content ↔
      received + receivedBytes content ≤ windowCount * windowLen ∧
        bytes = received + receivedBytes content ∧
          bytes = compared + comparedWindows content := by
  refine ⟨fun h => ⟨h.budget, h.refused _ _ rfl⟩, fun h => ⟨h.1, fun _ _ he => (by cases he), ?_⟩⟩
  rintro _ _ ⟨⟩
  exact h.2

theorem tallies_cons {outcome : Except RefreshError WindowsEnd} {x : Exchange}
    {content : List Exchange} (hx : x.isCompared = true) :
    Tallies total received compared outcome (x :: content) ↔
      Tallies total (received + x.contentBytes) (compared + 1) outcome content := by
  have hbytes : received + receivedBytes (x :: content) =
      received + x.contentBytes + receivedBytes content := by
    rw [receivedBytes_cons, Nat.add_assoc]
  have hwindows : compared + comparedWindows (x :: content) =
      compared + 1 + comparedWindows content := by
    rw [comparedWindows_cons, if_pos hx]
    omega
  constructor
  · rintro ⟨hbudget, hwhole, hrefused⟩
    rw [hbytes, hwindows] at *
    exact ⟨hbudget, hwhole, hrefused⟩
  · rintro ⟨hbudget, hwhole, hrefused⟩
    refine ⟨?_, ?_, ?_⟩ <;> rw [hbytes]
    · exact hbudget
    · rw [hwindows]
      exact hwhole
    · rw [hwindows]
      exact hrefused

theorem Asked.readError {before after : List (ℕ × ℕ)} {v : ℕ × ℕ}
    (h : Asked net spec part client url n (w :: windows) before v after reply) :
    part.readError w.1 = none := by
  cases h with
  | here hread => exact hread
  | later hread => exact hread

theorem Asked.answer {before after : List (ℕ × ℕ)} {v : ℕ × ℕ}
    (h : Asked net spec part client url n (w :: windows) before v after reply) :
    ∃ r, net.answer n (windowRequest client spec url w.1 w.2) = .ok r := by
  cases h with
  | here _ hans => exact ⟨_, hans⟩
  | later _ hans => exact ⟨_, hans⟩

/-- The invariant of the loop: the windows are short, so many of `total` were confirmed, and what
was received for them is no more than they are long. -/
structure Thrifty (total received compared : ℕ) (windows : List (ℕ × ℕ)) : Prop where
  short : ∀ w ∈ windows, w.2 ≤ windowLen
  received_le : received ≤ compared * windowLen
  total_eq : compared + windows.length = total
  total_le : total ≤ windowCount

theorem Thrifty.in_budget (h : Thrifty total received compared windows) :
    received ≤ windowCount * windowLen := by
  have hcompared : compared ≤ windowCount := by
    have := h.total_eq
    have := h.total_le
    omega
  exact h.received_le.trans (Nat.mul_le_mul_right _ hcompared)

/-- The windows that are chosen for a download, before the first request. -/
theorem thrifty_chooseWindows (digest : List UInt8 → List UInt8) (completed : RangeSet)
    (downloadId : String) :
    Thrifty (chooseWindows digest completed downloadId windowCount).length 0 0
      (chooseWindows digest completed downloadId windowCount) where
  short _ hw := le_windowLen_of_mem hw
  received_le := Nat.zero_le _
  total_eq := Nat.zero_add _
  total_le := length_chooseWindows_le digest completed downloadId (by decide)

theorem Thrifty.next {n : ℕ} (h : Thrifty total received compared (w :: windows)) (hn : n ≤ w.2) :
    Thrifty total (received + n) (compared + 1) windows where
  short v hv := h.short v (List.mem_cons_of_mem _ hv)
  received_le := by
    have hw := h.short w List.mem_cons_self
    have hreceived := h.received_le
    rw [Nat.add_one_mul]
    omega
  total_eq := by
    have htotal := h.total_eq
    rw [List.length_cons] at htotal
    omega
  total_le := h.total_le

/-- **The loop keeps the budget, and its end is reported right, exactly when the replies are fair.**
What was confirmed before the window at the front is carried as two numbers. -/
theorem checkWindows_tallies_iff (net : Net) (spec : RequestSpec) (part : PartFile)
    (client : Client) (url : Url) (hthrifty : Thrifty total received compared windows)
    (t : List Exchange) :
    ∃ content, ((checkWindows net spec part client url windows received).runFrom t).2 =
        t ++ content ∧
      (Tallies total received compared
          ((checkWindows net spec part client url windows received).runFrom t).1 content ↔
        FairReplies net spec part client url t.length received compared windows) := by
  induction windows generalizing received compared t with
  | nil =>
    refine ⟨[], (List.append_nil t).symm, iff_of_true (tallies_compared.2 ⟨?_, rfl, ?_⟩) ?_⟩
    · exact hthrifty.in_budget
    · exact hthrifty.total_eq.symm
    · exact fair_of_silent fun _ _ _ _ h => by cases h
  | cons w windows ih =>
    obtain ⟨offset, len⟩ := w
    have hbound := hthrifty.in_budget
    rw [checkWindows]
    cases hread : part.readError offset with
    | some text =>
      refine ⟨[], (List.append_nil t).symm, iff_of_true (tallies_error.2 hbound) ?_⟩
      refine fair_of_silent fun _ _ _ _ h => ?_
      simpa [hread] using h.readError
    | none =>
      dsimp only
      rw [Program.runFrom_bind]
      simp only [Net.send, Program.runFrom_modifyGet]
      cases hans : net.answer t.length (windowRequest client spec url offset len) with
      | error kind =>
        refine ⟨[⟨windowRequest client spec url offset len, .error kind⟩], rfl,
          iff_of_true (tallies_error.2 hbound) ?_⟩
        refine fair_of_silent fun _ _ _ _ h => ?_
        obtain ⟨r, hr⟩ := h.answer
        cases hans.symm.trans hr
      | ok reply =>
        have hlen : Exchange.contentBytes ⟨windowRequest client spec url offset len, .ok reply⟩ =
            if reply.status = 206 then reply.body.length else 0 := rfl
        have hcompared :
            Exchange.isCompared ⟨windowRequest client spec url offset len, .ok reply⟩ =
              (decide (reply.status = 206) && reply.broken.isNone) := rfl
        dsimp only
        split_ifs with hstatus
        · rw [if_pos hstatus] at hlen
          cases hbroken : reply.broken with
          | some text =>
            rw [Reply.bytes_of_broken hbroken, fair_broken_iff hread hans hstatus hbroken]
            refine ⟨[_], rfl, tallies_error.trans ?_⟩
            rw [receivedBytes_cons, hlen, receivedBytes_nil, Nat.add_zero]
          | none =>
            rw [hstatus, hbroken] at hcompared
            rw [Reply.bytes_of_whole hbroken]
            dsimp only
            cases hdiff : firstDifference offset (part.file.readAt offset len) reply.body with
            | some place =>
              have hne : reply.body ≠ part.file.readAt offset len := fun h => by
                rw [firstDifference_eq_none.2 h] at hdiff
                cases hdiff
              rw [fair_differs_iff hread hans hstatus hbroken hne]
              refine ⟨[_], rfl, tallies_compared.trans ?_⟩
              rw [receivedBytes_cons, hlen, comparedWindows_cons, hcompared, ← hthrifty.total_eq,
                ← List.length_eq_zero_iff]
              simp
            | none =>
              have heq : reply.body = part.file.readAt offset len := firstDifference_eq_none.1 hdiff
              have hnext := hthrifty.next (heq ▸ length_readAt_le part.file offset len)
              have hfits : received + reply.body.length ≤ windowCount * windowLen :=
                hnext.in_budget
              obtain ⟨content, hcontent, hiff⟩ := ih hnext
                (t ++ [⟨windowRequest client spec url offset len, .ok reply⟩])
              refine ⟨_ :: content, hcontent.trans (List.append_assoc _ _ _), ?_⟩
              rw [fair_confirmed_iff hread hans hstatus hbroken heq hfits, tallies_cons hcompared,
                hlen, hiff, List.length_append, List.length_singleton]
        · rw [if_neg hstatus] at hlen
          rw [fair_refused_iff hread hans hstatus]
          refine ⟨[_], rfl, tallies_refused.trans ?_⟩
          rw [receivedBytes_cons, hlen, comparedWindows_cons, hcompared]
          simp [hstatus, hbound]

/-! ### The report -/

theorem costTruthful_error {error : RefreshError} {content : List Exchange} :
    CostTruthful (.error error) content ↔ receivedBytes content ≤ windowCount * windowLen :=
  ⟨CostTruthful.budget, fun h => ⟨h, fun _ he => (by cases he), fun _ he => (by cases he)⟩⟩

theorem costTruthful_ok {pr : ProbeDetails} {verdict : Verdict} {windows bytes : ℕ}
    {content : List Exchange} :
    CostTruthful (.ok (reportOn lib pr verdict windows bytes)) content ↔
      receivedBytes content ≤ windowCount * windowLen ∧ bytes = receivedBytes content ∧
        windows = comparedWindows content := by
  refine ⟨fun h => ⟨h.budget, h.bytes _ rfl, h.windows _ rfl⟩, fun h => ⟨h.1, ?_, ?_⟩⟩
  · rintro _ ⟨⟩
    exact h.2.1
  · rintro _ ⟨⟩
    exact h.2.2

theorem costTruthful_nil {outcome : Except RefreshError ValidationReport}
    (h : ∀ report, outcome = .ok report → report.bytesVerified = 0 ∧ report.windowsChecked = 0) :
    CostTruthful outcome [] :=
  ⟨Nat.zero_le _, fun report hr => (h report hr).1, fun report hr => (h report hr).2⟩

/-- The windows are compared: the check is called for, a client can be built and the part file
opened. -/
structure Compares (net : Net) (settings : Settings) (spec : RequestSpec) (part : PartFile)
    (old : ResourceSignals) (completed : RangeSet) (pr : ProbeDetails) (client : Client) :
    Prop where
  verifiable : verifiable completed pr.rangeSupport
    (ResourceSignals.compare old (.fromProbe pr)).1 = true
  built : Client.build net settings spec pr.finalUrl = .ok client
  opened : part.openError = none

theorem validateContent_cost_iff (lib : UrlLib) (pr : ProbeDetails) (t : List Exchange) :
    ∃ content, ((validateContent lib net settings spec digest part old completed downloadId
        pr).runFrom t).2 = t ++ content ∧
      (CostTruthful ((validateContent lib net settings spec digest part old completed downloadId
          pr).runFrom t).1 content ↔
        ∀ client, Compares net settings spec part old completed pr client →
          FairReplies net spec part client pr.finalUrl t.length 0 0
            (chooseWindows digest completed downloadId windowCount)) := by
  unfold validateContent
  dsimp only
  split_ifs with hver
  · refine ⟨[], (List.append_nil t).symm, iff_of_true (costTruthful_nil ?_) fun client h => ?_⟩
    · rintro _ ⟨⟩
      exact ⟨rfl, rfl⟩
    · exact absurd (hver.symm.trans h.verifiable) (by decide)
  · cases hbuilt : Client.build net settings spec pr.finalUrl with
    | error error =>
      refine ⟨[], (List.append_nil t).symm,
        iff_of_true (costTruthful_nil fun _ he => (by cases he)) fun client h => ?_⟩
      cases hbuilt.symm.trans h.built
    | ok client =>
      dsimp only
      cases hopened : part.openError with
      | some text =>
        refine ⟨[], (List.append_nil t).symm,
          iff_of_true (costTruthful_nil fun _ he => (by cases he)) fun client h => ?_⟩
        cases hopened.symm.trans h.opened
      | none =>
        dsimp only
        obtain ⟨content, hcontent, hiff⟩ := checkWindows_tallies_iff net spec part client
          pr.finalUrl (thrifty_chooseWindows digest completed downloadId) t
        have hclient : (∀ client', Compares net settings spec part old completed pr client' →
            FairReplies net spec part client' pr.finalUrl t.length 0 0
              (chooseWindows digest completed downloadId windowCount)) ↔
            FairReplies net spec part client pr.finalUrl t.length 0 0
              (chooseWindows digest completed downloadId windowCount) := by
          refine ⟨fun h => h client ⟨by simpa using hver, hbuilt, hopened⟩, fun h client' h' => ?_⟩
          obtain rfl := Except.ok.inj (hbuilt.symm.trans h'.built)
          exact h
        rw [hclient, ← hiff, Program.runFrom_bind]
        generalize (checkWindows net spec part client pr.finalUrl
          (chooseWindows digest completed downloadId windowCount) 0).runFrom t = run at hcontent ⊢
        obtain ⟨outcome, t'⟩ := run
        refine ⟨content, ?_⟩
        cases outcome with
        | error error =>
          refine ⟨hcontent, costTruthful_error.trans (tallies_error.trans ?_).symm⟩
          rw [Nat.zero_add]
        | ok res =>
          cases res with
          | compared mismatch bytes =>
            refine ⟨hcontent, costTruthful_ok.trans (tallies_compared.trans ?_).symm⟩
            rw [Nat.zero_add, Nat.zero_add]
          | refused offset bytes =>
            refine ⟨hcontent, costTruthful_ok.trans (tallies_refused.trans ?_).symm⟩
            rw [Nat.zero_add, Nat.zero_add]

/-- The exchanges of a validation after those of its probe. -/
def windowTraffic (lib : UrlLib) (net : Net) (naming : Naming) (settings : Settings)
    (spec : RequestSpec) (digest : List UInt8 → List UInt8) (part : PartFile) (newUrl : String)
    (old : ResourceSignals) (completed : RangeSet) (downloadId : String) : List Exchange :=
  ((validateReplacementUrl lib net naming settings spec digest part newUrl old completed
    downloadId).runFrom []).2.drop
      ((probe lib net naming settings spec false newUrl).runFrom []).2.length

/-- **The cost of a validation.**  A validation receives at most four windows of content and
reports the bytes that arrived and the windows that were compared, exactly when the replies to its
requests for windows are fair. -/
theorem cost_truthful_iff (lib : UrlLib) (net : Net) (naming : Naming) (settings : Settings)
    (spec : RequestSpec) (digest : List UInt8 → List UInt8) (part : PartFile) (newUrl : String)
    (old : ResourceSignals) (completed : RangeSet) (downloadId : String) :
    CostTruthful ((validateReplacementUrl lib net naming settings spec digest part newUrl old
        completed downloadId).runFrom []).1
      (windowTraffic lib net naming settings spec digest part newUrl old completed downloadId) ↔
    ∀ pr client, ((probe lib net naming settings spec false newUrl).runFrom []).1 = .ok pr →
      Compares net settings spec part old completed pr client →
        FairReplies net spec part client pr.finalUrl
          ((probe lib net naming settings spec false newUrl).runFrom []).2.length 0 0
          (chooseWindows digest completed downloadId windowCount) := by
  unfold windowTraffic validateReplacementUrl
  rw [Program.runFrom_bind, Program.runFrom_mapError]
  generalize (probe lib net naming settings spec false newUrl).runFrom [] = probed
  obtain ⟨outcome, t⟩ := probed
  cases outcome with
  | error error =>
    refine iff_of_true ?_ fun pr client h => (by cases h)
    dsimp only
    rw [List.drop_length]
    exact costTruthful_nil fun _ he => (by cases he)
  | ok pr =>
    obtain ⟨content, hcontent, hiff⟩ := validateContent_cost_iff lib pr t
    dsimp only
    rw [hcontent, List.drop_left, hiff]
    constructor
    · rintro h pr' client ⟨⟩
      exact h client
    · exact fun h client => h pr client rfl

theorem checkWindows_second_refused {o₁ l₁ o₂ l₂ : ℕ} {body : List UInt8} (rest : List (ℕ × ℕ))
    (x : Exchange)
    (hread : ∀ offset, part.readError offset = none)
    (hfirst : net.answer 1 (windowRequest client {} url o₁ l₁) =
      .ok { status := 206, body := body })
    (hsame : firstDifference o₁ (part.file.readAt o₁ l₁) body = none)
    (hsecond : net.answer 2 (windowRequest client {} url o₂ l₂) =
      .ok { status := 503, body := [] }) :
    (checkWindows net {} part client url ((o₁, l₁) :: (o₂, l₂) :: rest) 0).runFrom [x] =
      (.ok (.refused o₂ body.length),
        [x, ⟨windowRequest client {} url o₁ l₁, .ok { status := 206, body := body }⟩,
          ⟨windowRequest client {} url o₂ l₂, .ok { status := 503, body := [] }⟩]) := by
  have hlen : ∀ y : Exchange, [x, y].length = 2 := fun _ => rfl
  simp only [checkWindows, hread, Program.runFrom_bind, Net.send, Program.runFrom_modifyGet,
    List.length_singleton, hfirst, if_true, Reply.bytes, Option.elim_none, hsame, List.cons_append,
    List.nil_append, hlen, hsecond]
  rw [if_neg (by decide), Nat.zero_add]
  rfl

/-- A refused window ends the validation, with the bytes so far reported as windows. -/
theorem validate_refused {raw : String} {pr : ProbeDetails} {t t' : List Exchange}
    {offset bytes : ℕ}
    (hprobe : (probe lib net naming settings spec false raw).runFrom [] = (.ok pr, t))
    (hver : verifiable completed pr.rangeSupport
      (ResourceSignals.compare old (.fromProbe pr)).1 = true)
    (hclient : Client.build net settings spec pr.finalUrl = .ok client)
    (hopened : part.openError = none)
    (hloop : (checkWindows net spec part client pr.finalUrl
      (chooseWindows digest completed downloadId windowCount) 0).runFrom t =
        (.ok (.refused offset bytes), t')) :
    (validateReplacementUrl lib net naming settings spec digest part raw old completed
      downloadId).runFrom [] =
        (.ok (reportOn lib pr (.reject (.contentMismatch offset)) bytes bytes), t') := by
  unfold validateReplacementUrl validateContent
  simp only [Program.runFrom_bind, Program.runFrom_mapError, hprobe, hver, hclient, hopened, hloop,
    Bool.true_eq_false, if_false, Program.runFrom_pure]

/-- A library that knows one file. -/
def oneFileLib : UrlLib := .ofTable
  [("https://ex.com/f", .ok { scheme := "https", host := some "ex.com", path := "/f" })] []

/-- A server of zeros that answers one request for a window and is busy from then on. -/
def busyNet : Net where
  proxyError _ := none
  buildError _ := none
  answer n _ :=
    if n = 0 then
      .ok { status := 206, body := [0], contentRange := some (.upTo 0 70000 (by decide)) }
    else if n = 1 then .ok { status := 206, body := List.replicate windowLen 0 }
    else .ok { status := 503, body := [] }
  display kind _ := kind

/-- A download of zeros that is complete. -/
def zeroPart : PartFile := ⟨⟨70000, fun _ => 0⟩, none, fun _ => none⟩

theorem readAt_zeroPart : zeroPart.file.readAt 0 windowLen = List.replicate windowLen 0 := by
  rw [File.readAt, zeroPart, List.map_const', List.length_range]
  rfl

theorem checkWindows_busy (client : Client) (url : Url) (x : Exchange) :
    ∃ y z, (checkWindows busyNet {} zeroPart client url
        [(0, windowLen), (100, windowLen), (4464, windowLen)] 0).runFrom [x] =
          (.ok (.refused 100 windowLen), [x, y, z]) ∧ comparedWindows [y, z] = 1 := by
  have hsame : firstDifference 0 (zeroPart.file.readAt 0 windowLen)
      (List.replicate windowLen 0) = none := firstDifference_eq_none.2 readAt_zeroPart.symm
  have hfirst : busyNet.answer 1 (windowRequest client {} url 0 windowLen) =
      .ok { status := 206, body := List.replicate windowLen 0 } := rfl
  have hsecond : busyNet.answer 2 (windowRequest client {} url 100 windowLen) =
      .ok { status := 503, body := [] } := rfl
  have hloop := checkWindows_second_refused [(4464, windowLen)] x (fun _ => rfl) hfirst hsame
    hsecond
  rw [List.length_replicate] at hloop
  exact ⟨_, _, hloop, rfl⟩

/-- The validation of a complete download against the busy server. -/
def busyRun : Except RefreshError ValidationReport × List Exchange :=
  (validateReplacementUrl oneFileLib busyNet (fun _ _ _ => ['f']) {} {} (fun b => b) zeroPart
    "https://ex.com/f" {} ⟨[(0, 70000)]⟩ "d").runFrom []

/-- **A report that counts bytes as windows.**  One window of 64 KiB is compared, the next request
is refused, and the report says that 65536 windows were checked. -/
theorem cost_misreported :
    ∃ report, busyRun.1 = .ok report ∧ report.windowsChecked = 65536 ∧
      comparedWindows (windowTraffic oneFileLib busyNet (fun _ _ _ => ['f']) {} {} (fun b => b)
        zeroPart "https://ex.com/f" {} ⟨[(0, 70000)]⟩ "d") = 1 ∧
      ¬CostTruthful busyRun.1 (windowTraffic oneFileLib busyNet (fun _ _ _ => ['f']) {} {}
        (fun b => b) zeroPart "https://ex.com/f" {} ⟨[(0, 70000)]⟩ "d") := by
  obtain ⟨pr, x, hprobe, hver⟩ : ∃ pr x, (probe oneFileLib busyNet (fun _ _ _ => ['f']) {} {} false
      "https://ex.com/f").runFrom [] = (.ok pr, [x]) ∧
        verifiable ⟨[(0, 70000)]⟩ pr.rangeSupport
          (ResourceSignals.compare {} (.fromProbe pr)).1 = true := ⟨_, _, rfl, rfl⟩
  obtain ⟨client, hclient⟩ : ∃ client, Client.build busyNet {} {} pr.finalUrl = .ok client :=
    ⟨_, rfl⟩
  obtain ⟨y, z, hloop, hone⟩ := checkWindows_busy client pr.finalUrl x
  have hwindows : chooseWindows (fun b => b) ⟨[(0, 70000)]⟩ "d" windowCount =
      [(0, windowLen), (100, windowLen), (4464, windowLen)] := by decide +kernel
  have hrun : busyRun = (.ok (reportOn oneFileLib pr (.reject (.contentMismatch 100)) windowLen
      windowLen), [x, y, z]) := validate_refused hprobe hver hclient rfl (hwindows ▸ hloop)
  have htraffic : windowTraffic oneFileLib busyNet (fun _ _ _ => ['f']) {} {} (fun b => b) zeroPart
      "https://ex.com/f" {} ⟨[(0, 70000)]⟩ "d" = [y, z] := by
    show busyRun.2.drop _ = _
    rw [hrun, hprobe]
    rfl
  rw [hrun, htraffic, costTruthful_ok, hone]
  exact ⟨_, rfl, rfl, rfl, fun h => absurd h.2.2 (by decide)⟩

end SwiftLoad
