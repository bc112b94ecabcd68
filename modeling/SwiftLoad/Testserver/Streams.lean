import Mathlib.Algebra.BigOperators.Group.List.Basic
import Mathlib.Data.List.Perm.Basic
import Mathlib.Order.Bounds.Basic
import SwiftLoad.Machine.Basic
import SwiftLoad.Testserver.Serve

/-!
# The streams of the test server

Requests overlap.  One that has passed the check of the cap is counted as a stream only when it is
answered, and others can pass the check in between.  A stream is counted down when its body is
dropped, whether it was read to the end or not.

* `serverMachine` : the requests between check and answer and the streams, in any order of steps.
* `serve_eq` : with nothing in between the two halves are `serve`.
* `Server.counts` : **what the counters of the server count.**
* `peak_streams` : **how far the streams can get beyond the cap.**
-/

namespace SwiftLoad

namespace Testserver

/-- `serve` up to the check of the cap, which may refuse the request. -/
def arrive (st : AppState) (sc : Scenario) : AppState × Option Answer :=
  let st := { st with stats := { st.stats with requests := st.stats.requests + 1 } }
  if sc.full st then
    ({ st with stats := { st.stats with status429 := st.stats.status429 + 1 } },
      some ⟨429, [("retry-after", ['1'])], .text "too many connections"⟩)
  else (st, none)

/-- `serve` after the check. -/
def proceed (st : AppState) (sc : Scenario) (range : Option Name) : AppState × Option Answer :=
  let requested := parseRange range sc.size
  let st := { st with stats := st.stats.count requested.isSome }
  match requested with
  | some (start, stop) =>
    if sc.ranges = .yes then respond st sc true start stop
    else respond st sc false 0 (sc.size - 1)
  | none =>
    if sc.ranges = .yes ∧ asksBytes range = true then (st, some ⟨416, [], .text "bad range"⟩)
    else respond st sc false 0 (sc.size - 1)

theorem serve_eq (st : AppState) (sc : Scenario) (range : Option Name) :
    serve st sc range = match arrive st sc with
      | (st', some a) => (st', some a)
      | (st', none) => proceed st' sc range := by
  unfold serve arrive
  dsimp only
  split
  · rfl
  · rfl

/-- The stream that an answer opens. -/
def opens : Option Answer → List BodyStream
  | some ⟨_, _, .stream b⟩ => [b]
  | _ => []

/-- The server with all that is going on. -/
structure Server where
  app : AppState := {}
  /-- The requests that have passed the check and are not answered yet. -/
  pending : List (Scenario × Option Name) := []
  streams : List BodyStream := []
  /-- The streams whose bodies were dropped, as they were then. -/
  dropped : List BodyStream := []

/-- What can happen. -/
inductive ServerEvent
  | request (sc : Scenario) (range : Option Name)
  | proceed (i : ℕ)
  | poll (i : ℕ)
  /-- The client has the whole body, or hangs up. -/
  | drop (i : ℕ)

namespace Server

/-- One event. -/
def step (s : Server) : ServerEvent → Option Server
  | .request sc range =>
    match arrive s.app sc with
    | (app, some _) => some { s with app := app }
    | (app, none) => some { s with app := app, pending := s.pending ++ [(sc, range)] }
  | .proceed i => s.pending[i]?.map fun r =>
    let out := Testserver.proceed s.app r.1 r.2
    { s with
      app := out.1
      pending := s.pending.eraseIdx i
      streams := s.streams ++ opens out.2 }
  | .poll i => s.streams[i]?.bind fun b => b.next.map fun out =>
    { s with
      app := { s.app with stats := out.1.count s.app.stats }
      streams := s.streams.set i out.2 }
  | .drop i => s.streams[i]?.map fun b =>
    { s with
      -- the guard of the stream
      app := { s.app with liveStreams := s.app.liveStreams - 1 }
      streams := s.streams.eraseIdx i
      dropped := s.dropped ++ [b] }

/-- The streams that were ever opened. -/
def opened (s : Server) : List BodyStream := s.streams ++ s.dropped

end Server

/-- The server as an event machine. -/
def serverMachine : Machine Server ServerEvent := ⟨Server.step⟩

/-! ### What the steps do -/

section Steps

variable {st st' : AppState} {sc : Scenario} {range : Option Name} {reply : Option Answer}

/-- What is known of a stream that was just opened. -/
structure Opened (b : BodyStream) : Prop where
  sent : b.sent = 0
  done : b.done = false
  fits : b.start + b.len ≤ u64Max

/-- What an answer does to the counters of streams. -/
inductive Opening (live peak : ℕ) (st : AppState) : List BodyStream → Prop
  | nothing (hlive : st.liveStreams = live) (hpeak : st.peakStreams = peak) :
      Opening live peak st []
  | stream {b : BodyStream} (hb : Opened b) (hlive : st.liveStreams = live + 1)
      (hpeak : st.peakStreams = max peak (live + 1)) : Opening live peak st [b]

theorem opening_respond {honour : Bool} {start stop : ℕ} (hle : start ≤ stop)
    (hmax : stop + 1 ≤ u64Max) :
    (respond st sc honour start stop).1.stats = st.stats ∧
      Opening st.liveStreams st.peakStreams (respond st sc honour start stop).1
        (opens (respond st sc honour start stop).2) := by
  have hopened : Opened { sc := sc, start := start, len := stop + 1 - start } :=
    ⟨rfl, rfl, show start + (stop + 1 - start) ≤ u64Max by omega⟩
  unfold respond
  cases hname : sc.filename.all headerValue with
  | true =>
    simp only [if_true]
    refine ⟨?_, .stream hopened ?_ ?_⟩ <;> split_ifs <;> rfl
  | false =>
    simp only [Bool.false_eq_true, if_false]
    refine ⟨?_, .nothing ?_ ?_⟩ <;> split_ifs <;> rfl

theorem opening_proceed (hsize : sc.size ≤ u64Max) :
    (proceed st sc range).1.stats = st.stats.count (parseRange range sc.size).isSome ∧
      Opening st.liveStreams st.peakStreams (proceed st sc range).1
        (opens (proceed st sc range).2) := by
  have hpos : 0 < u64Max := by decide
  unfold proceed
  dsimp only
  cases hparse : parseRange range sc.size with
  | some p =>
    obtain ⟨start, stop⟩ := p
    have hbounds := parseRange_bounds hparse
    dsimp only
    split_ifs
    · exact opening_respond hbounds.1 (by omega)
    · exact opening_respond (Nat.zero_le _) (by omega)
  | none =>
    dsimp only
    split_ifs
    · exact ⟨rfl, .nothing rfl rfl⟩
    · exact opening_respond (Nat.zero_le _) (by omega)

/-- A request is counted once. -/
theorem Stats.count_spec (stats : Stats) (ranged : Bool) :
    (stats.count ranged).requests = stats.requests ∧
      (stats.count ranged).status429 = stats.status429 ∧
      (stats.count ranged).rangeRequests + (stats.count ranged).fullRequests =
        stats.rangeRequests + stats.fullRequests + 1 ∧
      (stats.count ranged).bytesServed = stats.bytesServed ∧
      (stats.count ranged).resetsInjected = stats.resetsInjected := by
  cases ranged with
  | true => exact ⟨rfl, rfl, Nat.add_right_comm _ _ _, rfl, rfl⟩
  | false => exact ⟨rfl, rfl, rfl, rfl, rfl⟩

theorem BodyStream.next_eq_some {b b' : BodyStream} {item : Item}
    (hmax : b.start + b.len ≤ u64Max) (h : b.next = some (item, b')) :
    (∃ buf, item = .bytes buf ∧ b' = { b with sent := b.sent + buf.length }) ∨
      item = .reset ∧ b.done = false ∧ b' = { b with done := true } := by
  unfold BodyStream.next at h
  split_ifs at h with hover hstall hreset
  · obtain ⟨rfl, rfl⟩ := Prod.mk.inj (Option.some.inj h)
    exact .inr ⟨rfl, by simpa using (not_or.1 hover).1, rfl⟩
  · have hlt : b.sent < b.len := Nat.not_le.1 (not_or.1 hover).2
    have htoNat := Content.toNat_ofNat_of_le (show b.start + b.sent ≤ u64Max by omega)
    have hroom : (UInt64.ofNat (b.start + b.sent)).toNat + min chunkSize (b.len - b.sent) ≤
        u64Max := by
      rw [htoNat]
      omega
    obtain ⟨buf, hbuf, hlen, -⟩ := Content.chunk_spec b.sc.seed hroom
    dsimp only at h
    rw [hbuf, Option.map_some] at h
    obtain ⟨rfl, rfl⟩ := Prod.mk.inj (Option.some.inj h)
    exact .inl ⟨buf, rfl, by rw [hlen]⟩

end Steps

/-! ### What the counters count -/

namespace Server

/-- The counters of the server: each says what it is named after. -/
structure Counts (s : Server) : Prop where
  live : s.app.liveStreams = s.streams.length
  peak : s.streams.length ≤ s.app.peakStreams
  requests : s.app.stats.requests = s.app.stats.status429 + s.app.stats.rangeRequests +
    s.app.stats.fullRequests + s.pending.length
  bytesServed : s.app.stats.bytesServed = (s.opened.map BodyStream.sent).sum
  resetsInjected : s.app.stats.resetsInjected = s.opened.countP BodyStream.done

/-- The sizes of the scenarios are 64-bit numbers. -/
def Sized (_ : Server) : ServerEvent → Prop
  | .request sc _ => sc.size ≤ u64Max
  | _ => True

/-- The counters, and what keeps them right. -/
structure Good (s : Server) : Prop extends s.Counts where
  sized : ∀ r ∈ s.pending, r.1.size ≤ u64Max
  fits : ∀ b ∈ s.streams, b.start + b.len ≤ u64Max

section Counts

variable {s s' : Server} {e : ServerEvent} {i : ℕ} {b b' : BodyStream}

theorem perm_opened (hb : s.streams[i]? = some b) :
    s.opened.Perm (b :: (s.streams.eraseIdx i ++ s.dropped)) := by
  obtain ⟨hi, rfl⟩ := List.getElem?_eq_some_iff.1 hb
  exact (List.getElem_cons_eraseIdx_perm hi).symm.append_right s.dropped

theorem good_request {sc : Scenario} {range : Option Name} (h : s.Good)
    (hsize : sc.size ≤ u64Max) (hst : s.step (.request sc range) = some s') : s'.Good := by
  simp only [step, arrive] at hst
  split_ifs at hst with hfull
  · obtain rfl := Option.some.inj hst
    refine ⟨⟨h.live, h.peak, ?_, h.bytesServed, h.resetsInjected⟩, h.sized, h.fits⟩
    have hrequests := h.requests
    dsimp only
    omega
  · obtain rfl := Option.some.inj hst
    refine ⟨⟨h.live, h.peak, ?_, h.bytesServed, h.resetsInjected⟩, fun r hr => ?_, h.fits⟩
    · have hrequests := h.requests
      dsimp only
      rw [List.length_append, List.length_singleton]
      omega
    · rcases List.mem_append.1 hr with hr | hr
      · exact h.sized r hr
      · rw [List.mem_singleton.1 hr]
        exact hsize

theorem good_proceed (h : s.Good) (hst : s.step (.proceed i) = some s') : s'.Good := by
  obtain ⟨r, hr, rfl⟩ := Option.map_eq_some_iff.1 hst
  obtain ⟨hi, -⟩ := List.getElem?_eq_some_iff.1 hr
  obtain ⟨hstats, hopening⟩ :=
    @opening_proceed s.app r.1 r.2 (h.sized r (List.mem_of_getElem? hr))
  dsimp only
  generalize opens (Testserver.proceed s.app r.1 r.2).2 = bs at hopening ⊢
  generalize (Testserver.proceed s.app r.1 r.2).1 = app at hstats hopening ⊢
  obtain ⟨hall, h429, hranges, hserved, hresets⟩ :=
    Stats.count_spec s.app.stats (parseRange r.2 r.1.size).isSome
  rw [← hstats] at hall h429 hranges hserved hresets
  have hrequests : app.stats.requests = app.stats.status429 + app.stats.rangeRequests +
      app.stats.fullRequests + (s.pending.eraseIdx i).length := by
    have hbefore := h.requests
    rw [List.length_eraseIdx_of_lt hi]
    omega
  have hsized : ∀ r' ∈ s.pending.eraseIdx i, r'.1.size ≤ u64Max := fun r' hr' =>
    h.sized r' (List.mem_of_mem_eraseIdx hr')
  cases hopening with
  | nothing hlive hpeak =>
    rw [List.append_nil]
    exact ⟨⟨hlive.trans h.live, h.peak.trans_eq hpeak.symm, hrequests,
      hserved.trans h.bytesServed, hresets.trans h.resetsInjected⟩, hsized, h.fits⟩
  | @stream b hb hlive hpeak =>
    have hopened : ((s.streams ++ [b]) ++ s.dropped).Perm (b :: s.opened) := by
      rw [opened, List.append_assoc]
      exact List.perm_middle
    have hsum : (((s.streams ++ [b]) ++ s.dropped).map BodyStream.sent).sum =
        (s.opened.map BodyStream.sent).sum := by
      rw [(hopened.map BodyStream.sent).sum_eq, List.map_cons, List.sum_cons, hb.sent, Nat.zero_add]
    have hdone : ((s.streams ++ [b]) ++ s.dropped).countP BodyStream.done =
        s.opened.countP BodyStream.done := by
      rw [hopened.countP_eq, List.countP_cons_of_neg (by simp [hb.done])]
    refine ⟨⟨?_, ?_, hrequests, (hserved.trans h.bytesServed).trans hsum.symm,
      (hresets.trans h.resetsInjected).trans hdone.symm⟩, hsized, fun b' hb' => ?_⟩
    · rw [List.length_append, hlive, h.live]
      rfl
    · rw [List.length_append, hpeak, ← h.live]
      exact le_max_right _ _
    · rcases List.mem_append.1 hb' with hb' | hb'
      · exact h.fits b' hb'
      · rw [List.mem_singleton.1 hb']
        exact hb.fits

theorem good_poll (h : s.Good) (hst : s.step (.poll i) = some s') : s'.Good := by
  obtain ⟨b, hb, hout⟩ := Option.bind_eq_some_iff.1 hst
  obtain ⟨⟨item, b'⟩, hnext, rfl⟩ := Option.map_eq_some_iff.1 hout
  obtain ⟨hi, -⟩ := List.getElem?_eq_some_iff.1 hb
  have hfits := h.fits b (List.mem_of_getElem? hb)
  have hbefore := perm_opened hb
  have hafter : (s.streams.set i b' ++ s.dropped).Perm
      (b' :: (s.streams.eraseIdx i ++ s.dropped)) :=
    (List.set_perm_cons_eraseIdx hi b').append_right s.dropped
  have hlength : (s.streams.set i b').length = s.streams.length := List.length_set
  have hsame : b'.start + b'.len ≤ u64Max →
      ∀ b₀ ∈ s.streams.set i b', b₀.start + b₀.len ≤ u64Max := fun hb' b₀ hb₀ => by
    rcases List.mem_or_eq_of_mem_set hb₀ with hb₀ | rfl
    · exact h.fits b₀ hb₀
    · exact hb'
  have hserved := h.bytesServed
  have hresets := h.resetsInjected
  rw [(hbefore.map BodyStream.sent).sum_eq, List.map_cons, List.sum_cons] at hserved
  rw [hbefore.countP_eq] at hresets
  rcases BodyStream.next_eq_some hfits hnext with ⟨buf, rfl, rfl⟩ | ⟨rfl, hdone, rfl⟩
  · refine ⟨⟨h.live.trans hlength.symm, hlength.trans_le h.peak, h.requests, ?_, ?_⟩, h.sized,
      hsame hfits⟩
    · rw [opened, (hafter.map BodyStream.sent).sum_eq, List.map_cons, List.sum_cons]
      dsimp only [Item.count]
      omega
    · rw [opened, hafter.countP_eq]
      exact hresets
  · refine ⟨⟨h.live.trans hlength.symm, hlength.trans_le h.peak, h.requests, ?_, ?_⟩, h.sized,
      hsame hfits⟩
    · rw [opened, (hafter.map BodyStream.sent).sum_eq, List.map_cons, List.sum_cons]
      exact hserved
    · rw [opened, hafter.countP_eq, List.countP_cons_of_pos rfl]
      rw [List.countP_cons_of_neg (by simp [hdone])] at hresets
      dsimp only [Item.count]
      omega

theorem good_drop (h : s.Good) (hst : s.step (.drop i) = some s') : s'.Good := by
  obtain ⟨b, hb, rfl⟩ := Option.map_eq_some_iff.1 hst
  obtain ⟨hi, -⟩ := List.getElem?_eq_some_iff.1 hb
  have hlength : (s.streams.eraseIdx i).length = s.streams.length - 1 :=
    List.length_eraseIdx_of_lt hi
  have hopened : (s.streams.eraseIdx i ++ (s.dropped ++ [b])).Perm s.opened := by
    refine List.Perm.trans ?_ (perm_opened hb).symm
    rw [← List.append_assoc]
    exact List.perm_append_singleton _ _
  refine ⟨⟨?_, ?_, h.requests, ?_, ?_⟩, h.sized, fun b' hb' => ?_⟩
  · dsimp only
    rw [hlength, h.live]
  · exact (hlength.trans_le (Nat.sub_le _ _)).trans h.peak
  · rw [opened, (hopened.map BodyStream.sent).sum_eq]
    exact h.bytesServed
  · rw [opened, hopened.countP_eq]
    exact h.resetsInjected
  · exact h.fits b' (List.mem_of_mem_eraseIdx hb')

theorem Good.step (h : s.Good) (he : Sized s e) (hst : s.step e = some s') : s'.Good := by
  cases e with
  | request sc range => exact good_request h he hst
  | proceed i => exact good_proceed h hst
  | poll i => exact good_poll h hst
  | drop i => exact good_drop h hst

theorem good_start : Good {} :=
  ⟨⟨rfl, le_rfl, rfl, rfl, rfl⟩, nofun, nofun⟩

theorem good_of_reaches (h : serverMachine.ReachesUnder Sized {} s) : s.Good :=
  h.invariant good_start fun _ _ _ hs he hst => hs.step he hst

end Counts

end Server

/-- **The counters.**  Whatever is asked for and in whatever order requests, polls and hang-ups
come, the live streams are those that are open, no more were ever open than the peak says, every
request was refused, answered or is on its way, and the bytes and the resets are those of all the
streams that were ever opened. -/
theorem Server.counts {s : Server} (h : serverMachine.ReachesUnder Server.Sized {} s) : s.Counts :=
  (Server.good_of_reaches h).toCounts

/-- A request that is answered, and whose client hangs up. -/
theorem Server.counts_hangup : ∃ s, serverMachine.exec {}
    [.request { seed := 1, size := 4 } none, .proceed 0, .drop 0] = some s ∧ s.Counts := by
  obtain ⟨s, hrun⟩ : ∃ s, serverMachine.exec {}
      [.request { seed := 1, size := 4 } none, .proceed 0, .drop 0] = some s := ⟨_, rfl⟩
  refine ⟨s, hrun, Server.counts (Machine.reachesUnder_of_exec hrun fun e he s => ?_)⟩
  simp only [List.mem_cons, List.not_mem_nil, or_false] at he
  rcases he with rfl | rfl | rfl
  · exact show 4 ≤ u64Max by decide
  · trivial
  · trivial

/-! ### The cap -/

namespace Server

/-- Every request is capped, at `limit` at most, and no more than `m` are on their way at once. -/
def Overlaps (limit m : ℕ) (s : Server) : ServerEvent → Prop
  | .request sc _ =>
    sc.size ≤ u64Max ∧ (∃ k ∈ sc.maxConn, k ≤ limit) ∧ s.pending.length < m
  | _ => True

/-- The streams stay below the cap and what can overlap. -/
structure Capped (limit m : ℕ) (s : Server) : Prop where
  both : s.app.liveStreams + s.pending.length ≤ limit + (m - 1)
  peak : s.app.peakStreams ≤ limit + (m - 1)

section Cap

variable {limit m : ℕ} {s s' : Server} {e : ServerEvent}

theorem Overlaps.sized (h : Overlaps limit m s e) : Sized s e := by
  cases e with
  | request sc range => exact h.1
  | _ => trivial

theorem Capped.step (h : s.Capped limit m) (hgood : s.Good) (he : Overlaps limit m s e)
    (hst : s.step e = some s') : s'.Capped limit m := by
  have hboth := h.both
  cases e with
  | request sc range =>
    obtain ⟨-, ⟨k, hk, hle⟩, hm⟩ := he
    simp only [Server.step, arrive] at hst
    split_ifs at hst with hfull
    · obtain rfl := Option.some.inj hst
      exact ⟨h.both, h.peak⟩
    · obtain rfl := Option.some.inj hst
      -- it passed the check, so there was room for one more
      have hlive : s.app.liveStreams < k := by
        simpa [Scenario.full, Option.mem_def.1 hk] using hfull
      refine ⟨?_, h.peak⟩
      dsimp only
      rw [List.length_append, List.length_singleton]
      omega
  | proceed i =>
    obtain ⟨r, hr, rfl⟩ := Option.map_eq_some_iff.1 hst
    obtain ⟨hi, -⟩ := List.getElem?_eq_some_iff.1 hr
    obtain ⟨-, hopening⟩ :=
      @opening_proceed s.app r.1 r.2 (hgood.sized r (List.mem_of_getElem? hr))
    have hlength : (s.pending.eraseIdx i).length = s.pending.length - 1 :=
      List.length_eraseIdx_of_lt hi
    generalize opens (Testserver.proceed s.app r.1 r.2).2 = bs at hopening
    cases hopening with
    | nothing hlive' hpeak' =>
      refine ⟨?_, hpeak'.trans_le h.peak⟩
      dsimp only
      omega
    | stream hb hlive' hpeak' =>
      refine ⟨?_, hpeak'.trans_le (max_le h.peak (by omega))⟩
      dsimp only
      omega
  | poll i =>
    obtain ⟨b, -, hout⟩ := Option.bind_eq_some_iff.1 hst
    obtain ⟨out, -, rfl⟩ := Option.map_eq_some_iff.1 hout
    exact ⟨h.both, h.peak⟩
  | drop i =>
    obtain ⟨b, -, rfl⟩ := Option.map_eq_some_iff.1 hst
    exact ⟨(Nat.add_le_add_right (Nat.sub_le _ _) _).trans h.both, h.peak⟩

theorem capped_of_reaches (h : serverMachine.ReachesUnder (Overlaps limit m) {} s) :
    s.Capped limit m :=
  h.invariant_of_reached ⟨Nat.zero_le _, Nat.zero_le _⟩ fun _ _ _ hs hcap he hst =>
    hcap.step (good_of_reaches (hs.mono fun _ _ => Overlaps.sized)) he hst

end Cap

/-! ### The cap can be exceeded -/

/-- A file behind a cap. -/
def cappedFile (limit : ℕ) : Scenario := { seed := 0, size := 1, maxConn := some limit }

section Exceed

variable {limit m : ℕ} {s : Server}

theorem exists_request (hlive : s.app.liveStreams < limit) :
    ∃ s', s.step (.request (cappedFile limit) none) = some s' ∧
      s'.app.liveStreams = s.app.liveStreams ∧
      s'.pending = s.pending ++ [(cappedFile limit, none)] := by
  have hfree : (cappedFile limit).full
      { s.app with stats := { s.app.stats with requests := s.app.stats.requests + 1 } } =
        false := by
    simpa [Scenario.full, cappedFile] using hlive
  simp only [Server.step, arrive, hfree, Bool.false_eq_true, if_false]
  exact ⟨_, rfl, rfl, rfl⟩

theorem exists_proceed {rest : List (Scenario × Option Name)}
    (hp : s.pending = (cappedFile limit, none) :: rest) :
    ∃ s', s.step (.proceed 0) = some s' ∧ s'.app.liveStreams = s.app.liveStreams + 1 ∧
      s'.pending = rest := by
  simp only [Server.step, hp]
  exact ⟨_, rfl, rfl, rfl⟩

/-- Requests pass the check together. -/
theorem exists_admitted (hs : serverMachine.ReachesUnder (Overlaps limit m) {} s)
    (hlive : s.app.liveStreams < limit) (hp : s.pending = []) {j : ℕ} (hj : j ≤ m) :
    ∃ s', serverMachine.ReachesUnder (Overlaps limit m) {} s' ∧
      s'.app.liveStreams = s.app.liveStreams ∧
      s'.pending = List.replicate j (cappedFile limit, none) := by
  induction j with
  | zero => exact ⟨s, hs, rfl, hp⟩
  | succ j ih =>
    obtain ⟨s₁, hs₁, hlive₁, hp₁⟩ := ih (by omega)
    obtain ⟨s', hst, hlive', hp'⟩ := exists_request (hlive₁.trans_lt hlive)
    have hoverlaps : Overlaps limit m s₁ (.request (cappedFile limit) none) := by
      refine ⟨show 1 ≤ u64Max by decide, ⟨limit, rfl, le_rfl⟩, ?_⟩
      rw [hp₁, List.length_replicate]
      exact hj
    refine ⟨s', hs₁.tail hoverlaps hst, hlive'.trans hlive₁, ?_⟩
    rw [hp', hp₁, List.replicate_succ']

/-- They are answered one after the other. -/
theorem exists_answered {j : ℕ} (hs : serverMachine.ReachesUnder (Overlaps limit m) {} s)
    (hp : s.pending = List.replicate j (cappedFile limit, none)) :
    ∃ s', serverMachine.ReachesUnder (Overlaps limit m) {} s' ∧
      s'.app.liveStreams = s.app.liveStreams + j ∧ s'.pending = [] := by
  induction j generalizing s with
  | zero => exact ⟨s, hs, rfl, hp⟩
  | succ j ih =>
    obtain ⟨s₁, hst, hlive₁, hp₁⟩ := exists_proceed (hp.trans List.replicate_succ)
    have hoverlaps : Overlaps limit m s (.proceed 0) := trivial
    obtain ⟨s', hs', hlive', hp'⟩ := ih (hs.tail hoverlaps hst) hp₁
    exact ⟨s', hs', by omega, hp'⟩

/-- One request at a time fills the server up. -/
theorem exists_live (hm : 0 < m) {k : ℕ} (hk : k ≤ limit) :
    ∃ s, serverMachine.ReachesUnder (Overlaps limit m) {} s ∧ s.app.liveStreams = k ∧
      s.pending = [] := by
  induction k with
  | zero => exact ⟨{}, .refl, rfl, rfl⟩
  | succ k ih =>
    obtain ⟨s, hs, rfl, hp⟩ := ih (by omega)
    obtain ⟨s₁, hs₁, hlive₁, hp₁⟩ := exists_admitted hs hk hp hm
    obtain ⟨s', hs', hlive', hp'⟩ := exists_answered hs₁ hp₁
    exact ⟨s', hs', by omega, hp'⟩

end Exceed

end Server

open Server in
/-- **The cap of the test server.**  When every scenario has a cap of `limit` or less, and at most
`m` requests are between the check and the answer at once, the peak is never more than `m - 1`
beyond the cap; and it can be that much, so only without overlaps the cap holds. -/
theorem peak_streams {limit m : ℕ} (hlimit : 0 < limit) (hm : 0 < m) :
    IsGreatest {n | ∃ s, serverMachine.ReachesUnder (Overlaps limit m) {} s ∧
      s.app.peakStreams = n} (limit + (m - 1)) := by
  constructor
  · obtain ⟨s, hs, hlive, hp⟩ := exists_live hm (Nat.sub_le limit 1)
    obtain ⟨s₁, hs₁, hlive₁, hp₁⟩ := exists_admitted hs (by omega) hp le_rfl
    obtain ⟨s', hs', hlive', -⟩ := exists_answered hs₁ hp₁
    refine ⟨s', hs', le_antisymm (capped_of_reaches hs').peak ?_⟩
    have hgood := good_of_reaches (hs'.mono fun _ _ => Overlaps.sized)
    refine le_trans ?_ hgood.peak
    rw [← hgood.live]
    omega
  · rintro _ ⟨s, hs, rfl⟩
    exact (capped_of_reaches hs).peak

/-- A cap of two and three requests at once: four streams. -/
theorem peak_streams_three :
    IsGreatest {n | ∃ s, serverMachine.ReachesUnder (Server.Overlaps 2 3) {} s ∧
      s.app.peakStreams = n} 4 :=
  peak_streams (by decide) (by decide)

end Testserver

end SwiftLoad
