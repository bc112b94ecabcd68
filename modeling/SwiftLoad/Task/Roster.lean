import SwiftLoad.Task.Caps

/-!
# The workers and their tokens

`retire_down_to` is given the tokens of all workers ever spawned and the number of those that have
not exited.  It cannot tell the tokens of the exited ones, which stay in the list, and it counts
the workers that were asked to go before and have not gone yet.

* `Roster` : the workers ever spawned, each with its token; `rosterMachine` : they are spawned,
  they exit, and some are asked to go.
* `Roster.members_retire` : a call cancels the first tokens of the excess.
* `Roster.staying_retire_iff` : when the number of workers that stay is the one asked for.
* `Roster.exact_iff` : when besides no token of an exited worker is cancelled.
* `retirement_exact_iff` : **which histories stand down just the excess.**
* `last_worker_stays` : in these, unless workers exit unasked, there is always one that stays.
* `Drive.enrolled` : what the driver does to its workers and tokens is a history.
-/

namespace SwiftLoad

/-- A worker and its token. -/
structure Member where
  /-- The token is cancelled. -/
  retired : Bool
  /-- The worker has exited. -/
  exited : Bool
deriving DecidableEq, Repr

/-- The workers ever spawned, in order. -/
@[ext] structure Roster where
  members : List Member
deriving DecidableEq, Repr

/-- What can happen to the workers. -/
inductive RosterEvent
  | spawn
  | exit (i : ℕ)
  | retire (target : ℕ)
deriving DecidableEq, Repr

namespace Roster

/-- `retire_tokens`. -/
def tokens (r : Roster) : List Bool := r.members.map Member.retired

/-- The number of workers that have not exited. -/
def live (r : Roster) : ℕ := r.members.countP fun m => !m.exited

/-- Those that were not asked to go. -/
def staying (r : Roster) : ℕ := r.members.countP fun m => !m.retired && !m.exited

/-- Those that were asked to go and have not gone yet. -/
def leaving (r : Roster) : ℕ := r.members.countP fun m => m.retired && !m.exited

/-- How many workers are too many. -/
def excess (target : ℕ) (r : Roster) : ℕ := r.live - max target 1

/-- A call of `retire_down_to`. -/
def retire (target : ℕ) (r : Roster) : Roster where
  members := List.zipWith (fun t m => { m with retired := t })
    (retireDownTo r.tokens r.live target) r.members

/-- One event. -/
def step (r : Roster) : RosterEvent → Option Roster
  | .spawn => some ⟨r.members ++ [⟨false, false⟩]⟩
  | .exit i =>
    r.members[i]?.bind fun m =>
      if m.exited then none else some ⟨r.members.set i { m with exited := true }⟩
  | .retire target => some (r.retire target)

/-- The calls of `retire_down_to` in a history, with the workers they find. -/
def calls : Roster → List RosterEvent → List (Roster × ℕ)
  | _, [] => []
  | r, .retire target :: es => (r, target) :: calls (r.retire target) es
  | r, e :: es =>
    match r.step e with
    | some r' => calls r' es
    | none => []

end Roster

/-- The workers as an event machine. -/
def rosterMachine : Machine Roster RosterEvent := ⟨Roster.step⟩

/-! ### What a call cancels -/

/-- Cancel the first `n` tokens that are not cancelled yet. -/
def cancelFirst : ℕ → List Member → List Member
  | 0, ms => ms
  | _ + 1, [] => []
  | n + 1, m :: ms =>
    if m.retired then m :: cancelFirst (n + 1) ms
    else { m with retired := true } :: cancelFirst n ms

/-- The workers of these tokens. -/
def firstAsked (n : ℕ) (ms : List Member) : List Member := (ms.filter fun m => !m.retired).take n

section CancelFirst

variable {n : ℕ} {m : Member} {ms : List Member} {tokens : List Bool}

@[simp] theorem retireLoop_true_cons :
    retireLoop n (true :: tokens) = true :: retireLoop n tokens := by
  induction n generalizing tokens with
  | zero => rfl
  | succ n ih =>
    simp only [retireLoop, List.findIdx?_cons, Bool.not_true, Bool.false_eq_true, if_false]
    cases tokens.findIdx? (fun t => !t) with
    | none => rfl
    | some i => exact ih

@[simp] theorem retireLoop_false_cons :
    retireLoop (n + 1) (false :: tokens) = true :: retireLoop n tokens := by
  simp [retireLoop, List.findIdx?_cons]

@[simp] theorem retireLoop_nil : retireLoop n [] = [] := by
  cases n <;> rfl

@[simp] theorem cancelFirst_zero : cancelFirst 0 ms = ms := by
  cases ms <;> rfl

@[simp] theorem cancelFirst_nil : cancelFirst n [] = [] := by
  cases n <;> rfl

theorem cancelFirst_retired (h : m.retired = true) :
    cancelFirst (n + 1) (m :: ms) = m :: cancelFirst (n + 1) ms := if_pos h

theorem cancelFirst_unretired (h : ¬m.retired = true) :
    cancelFirst (n + 1) (m :: ms) = { m with retired := true } :: cancelFirst n ms := if_neg h

@[simp] theorem firstAsked_zero : firstAsked 0 ms = [] := List.take_zero

@[simp] theorem firstAsked_nil : firstAsked n [] = [] := List.take_nil

theorem firstAsked_retired (h : m.retired = true) :
    firstAsked n (m :: ms) = firstAsked n ms := by
  simp only [firstAsked, List.filter_cons, h, Bool.not_true, Bool.false_eq_true, if_false]

theorem firstAsked_unretired (h : ¬m.retired = true) :
    firstAsked (n + 1) (m :: ms) = m :: firstAsked n ms := by
  simp only [firstAsked, List.filter_cons, h, Bool.not_false, if_true, List.take_succ_cons]

/-- The loop over the tokens cancels the first ones. -/
theorem map_retired_cancelFirst (n : ℕ) (ms : List Member) :
    (cancelFirst n ms).map Member.retired = retireLoop n (ms.map Member.retired) := by
  induction n, ms using cancelFirst.induct with
  | case1 ms => simp only [cancelFirst_zero, retireLoop]
  | case2 n => simp only [cancelFirst_nil, List.map_nil, retireLoop_nil]
  | case3 n m ms hm ih =>
    rw [cancelFirst_retired hm, List.map_cons, List.map_cons, ih, hm, retireLoop_true_cons]
  | case4 n m ms hm ih =>
    rw [cancelFirst_unretired hm, List.map_cons, List.map_cons, ih,
      Bool.eq_false_of_not_eq_true hm, retireLoop_false_cons]

theorem map_exited_cancelFirst (n : ℕ) (ms : List Member) :
    (cancelFirst n ms).map Member.exited = ms.map Member.exited := by
  induction n, ms using cancelFirst.induct with
  | case1 ms => rw [cancelFirst_zero]
  | case2 n => rw [cancelFirst_nil]
  | case3 n m ms hm ih => rw [cancelFirst_retired hm, List.map_cons, List.map_cons, ih]
  | case4 n m ms hm ih => rw [cancelFirst_unretired hm, List.map_cons, List.map_cons, ih]

theorem zipWith_retired (ms ms' : List Member)
    (h : ms'.map Member.exited = ms.map Member.exited) :
    List.zipWith (fun t m => { m with retired := t }) (ms'.map Member.retired) ms = ms' := by
  induction ms' generalizing ms with
  | nil => rw [List.map_nil, List.zipWith_nil_left]
  | cons m' ms' ih =>
    cases ms with
    | nil => cases h
    | cons m ms =>
      obtain ⟨hm, hms⟩ := List.cons.inj h
      rw [List.map_cons, List.zipWith_cons_cons, ih ms hms, ← hm]

theorem countP_cancelFirst (n : ℕ) (ms : List Member) :
    (cancelFirst n ms).countP (fun m => !m.retired && !m.exited) +
        (firstAsked n ms).countP (fun m => !m.exited) =
      ms.countP fun m => !m.retired && !m.exited := by
  induction n, ms using cancelFirst.induct with
  | case1 ms => rw [cancelFirst_zero, firstAsked_zero, List.countP_nil, Nat.add_zero]
  | case2 n => rw [cancelFirst_nil, firstAsked_nil, List.countP_nil, List.countP_nil]
  | case3 n m ms hm ih =>
    rw [cancelFirst_retired hm, firstAsked_retired hm]
    simp only [List.countP_cons, hm, Bool.not_true, Bool.false_and, Bool.false_eq_true, if_false]
    exact ih
  | case4 n m ms hm ih =>
    rw [cancelFirst_unretired hm, firstAsked_unretired hm]
    simp only [List.countP_cons, hm, Bool.not_true, Bool.not_false, Bool.true_and, Bool.false_and,
      Bool.false_eq_true, if_false]
    omega

theorem newly_cancelled_iff (n : ℕ) (ms : List Member) :
    (∀ q ∈ ms.zip (cancelFirst n ms), q.1.retired = false → q.2.retired = true →
      q.1.exited = false) ↔ ∀ m ∈ firstAsked n ms, m.exited = false := by
  induction n, ms using cancelFirst.induct with
  | case1 ms =>
    rw [cancelFirst_zero, firstAsked_zero]
    refine iff_of_true (fun q hq hold hnew => ?_) (List.forall_mem_nil _)
    rw [List.zip, List.zipWith_self] at hq
    obtain ⟨m, -, rfl⟩ := List.mem_map.1 hq
    rw [hold] at hnew
    cases hnew
  | case2 n =>
    rw [cancelFirst_nil, firstAsked_nil]
    exact iff_of_true (List.forall_mem_nil _) (List.forall_mem_nil _)
  | case3 n m ms hm ih =>
    rw [cancelFirst_retired hm, firstAsked_retired hm, ← ih, List.zip_cons_cons,
      List.forall_mem_cons]
    refine and_iff_right fun hold => ?_
    rw [hm] at hold
    cases hold
  | case4 n m ms hm ih =>
    rw [cancelFirst_unretired hm, firstAsked_unretired hm, List.zip_cons_cons,
      List.forall_mem_cons, List.forall_mem_cons, ih]
    refine and_congr_left fun _ => ?_
    exact ⟨fun h => h (Bool.eq_false_of_not_eq_true hm) rfl, fun h _ _ => h⟩

theorem cancelFirst_eq_self (h : firstAsked n ms = []) : cancelFirst n ms = ms := by
  induction n, ms using cancelFirst.induct with
  | case1 ms => exact cancelFirst_zero
  | case2 n => exact cancelFirst_nil
  | case3 n m ms hm ih =>
    rw [firstAsked_retired hm] at h
    rw [cancelFirst_retired hm, ih h]
  | case4 n m ms hm ih =>
    rw [firstAsked_unretired hm] at h
    cases h

end CancelFirst

namespace Roster

variable {r : Roster} {target : ℕ}

/-- The workers a call asks to go. -/
def asked (target : ℕ) (r : Roster) : List Member := firstAsked (r.excess target) r.members

/-- A call stands down just the excess, and spends no token on a worker that has exited. -/
structure Exact (target : ℕ) (r : Roster) : Prop where
  staying : (r.retire target).staying = min r.staying (max target 1)
  spent : ∀ q ∈ r.members.zip (r.retire target).members, q.1.retired = false →
    q.2.retired = true → q.1.exited = false

/-- There is no excess or no token to cancel, or nobody is leaving already and the first tokens
are those of live workers. -/
def Fits (target : ℕ) (r : Roster) : Prop :=
  r.excess target = 0 ∨ (∀ m ∈ r.members, m.retired = true) ∨
    r.leaving = 0 ∧ ∀ m ∈ r.asked target, m.exited = false

theorem members_retire (target : ℕ) (r : Roster) :
    (r.retire target).members = cancelFirst (r.excess target) r.members := by
  have htokens : retireDownTo r.tokens r.live target =
      (cancelFirst (r.excess target) r.members).map Member.retired :=
    (map_retired_cancelFirst _ _).symm
  unfold retire
  rw [htokens]
  exact zipWith_retired _ _ (map_exited_cancelFirst _ _)

theorem live_eq_countP_map (r : Roster) :
    r.live = (r.members.map Member.exited).countP fun exited => !exited := by
  rw [List.countP_map]
  rfl

theorem live_eq (r : Roster) : r.live = r.staying + r.leaving := by
  unfold live staying leaving
  induction r.members with
  | nil => rfl
  | cons m ms ih =>
    simp only [List.countP_cons]
    rw [ih]
    obtain ⟨retired, exited⟩ := m
    cases retired <;> cases exited <;> simp <;> omega

/-- The tokens that are not cancelled belong to those that stay and to those that have exited. -/
theorem length_unretired (ms : List Member) :
    (ms.filter fun m => !m.retired).length =
      ms.countP (fun m => !m.retired && !m.exited) +
        (ms.filter fun m => !m.retired).countP Member.exited := by
  induction ms with
  | nil => rfl
  | cons m ms ih =>
    obtain ⟨retired, exited⟩ := m
    cases retired <;> cases exited <;>
      simp only [List.filter_cons, List.countP_cons, List.length_cons, Bool.not_true,
        Bool.not_false, Bool.and_true, Bool.and_false, Bool.false_eq_true, if_true, if_false] <;>
      omega

/-- How many tokens of exited workers a call cancels. -/
def stale (target : ℕ) (r : Roster) : ℕ := (r.asked target).countP Member.exited

/-- How many tokens of exited workers are not cancelled. -/
def idle (r : Roster) : ℕ := (r.members.filter fun m => !m.retired).countP Member.exited

theorem length_asked (target : ℕ) (r : Roster) :
    (r.asked target).length = min (r.excess target) (r.staying + r.idle) := by
  rw [asked, firstAsked, List.length_take, length_unretired]
  rfl

theorem stale_le (target : ℕ) (r : Roster) :
    r.stale target ≤ r.idle ∧ r.stale target ≤ r.excess target := by
  refine ⟨(List.take_sublist _ _).countP_le, ?_⟩
  have hlen : r.stale target ≤ (r.asked target).length := List.countP_le_length
  rw [length_asked] at hlen
  exact hlen.trans (min_le_left _ _)

theorem staying_retire (target : ℕ) (r : Roster) :
    (r.retire target).staying + min (r.excess target) (r.staying + r.idle) =
      r.staying + r.stale target := by
  have hleft := countP_cancelFirst (r.excess target) r.members
  have hsplit := List.length_eq_countP_add_countP Member.exited (l := r.asked target)
  rw [length_asked] at hsplit
  rw [← members_retire] at hleft
  simp only [Bool.not_eq_true, ← Bool.not_eq_true', Bool.decide_eq_true] at hsplit
  unfold staying stale asked at *
  omega

/-- **When a call leaves the number asked for.** -/
theorem staying_retire_iff (target : ℕ) (r : Roster) :
    (r.retire target).staying = min r.staying (max target 1) ↔
      r.staying = 0 ∨ r.stale target = min r.leaving (r.excess target) := by
  have hcut := staying_retire target r
  obtain ⟨hidle, hstale⟩ := stale_le target r
  have hlive := live_eq r
  have hexcess : r.excess target = r.live - max target 1 := rfl
  have hpos : 1 ≤ max target 1 := le_max_right _ _
  generalize max target 1 = k at *
  omega

theorem spent_iff (target : ℕ) (r : Roster) :
    (∀ q ∈ r.members.zip (r.retire target).members, q.1.retired = false → q.2.retired = true →
      q.1.exited = false) ↔ r.stale target = 0 := by
  rw [members_retire, newly_cancelled_iff]
  unfold stale asked
  simp only [List.countP_eq_zero, Bool.not_eq_true]

/-- **When a call stands down just the excess.** -/
theorem exact_iff (target : ℕ) (r : Roster) : r.Exact target ↔ r.Fits target := by
  have hexact : r.Exact target ↔ (r.retire target).staying = min r.staying (max target 1) ∧
      r.stale target = 0 := by
    rw [← spent_iff]
    exact ⟨fun h => ⟨h.staying, h.spent⟩, fun h => ⟨h.1, h.2⟩⟩
  have hall : (∀ m ∈ r.members, m.retired = true) ↔ r.staying + r.idle = 0 := by
    have hlen := length_unretired r.members
    rw [show r.staying + r.idle = _ from hlen.symm, List.length_eq_zero_iff,
      List.filter_eq_nil_iff]
    simp
  have hasked : (∀ m ∈ r.asked target, m.exited = false) ↔ r.stale target = 0 := by
    unfold stale
    simp only [List.countP_eq_zero, Bool.not_eq_true]
  rw [hexact, staying_retire_iff, Fits, hall, hasked]
  have hcut := staying_retire target r
  obtain ⟨hidle, hstale⟩ := stale_le target r
  have hlive := live_eq r
  have hexcess : r.excess target = r.live - max target 1 := rfl
  have hpos : 1 ≤ max target 1 := le_max_right _ _
  omega

theorem Exact.retire_eq_self (h : r.Exact target) (hle : r.staying ≤ max target 1) :
    r.retire target = r := by
  have hcut := staying_retire target r
  have hstale : r.stale target = 0 := (spent_iff target r).1 h.spent
  have hkept : (r.retire target).staying = r.staying := h.staying.trans (min_eq_left hle)
  have hnone : firstAsked (r.excess target) r.members = [] := by
    refine List.eq_nil_of_length_eq_zero ((length_asked target r).trans ?_)
    omega
  exact Roster.ext ((members_retire target r).trans (cancelFirst_eq_self hnone))

theorem Exact.pos (h : r.Exact target) (hpos : 0 < r.staying) : 0 < (r.retire target).staying := by
  have hkept := h.staying
  omega

instance : Decidable (r.Fits target) := inferInstanceAs (Decidable (_ ∨ _ ∨ _))

/-- Calls stand down just the excess, and only workers that were asked to go exit. -/
def orderly (r : Roster) : RosterEvent → Prop
  | .spawn => True
  | .exit i => ∃ m, r.members[i]? = some m ∧ m.retired = true
  | .retire target => r.Fits target

end Roster

/-- **Exact retirement.**  In every history of workers that are spawned, exit and are asked to go,
all calls stand down just the excess, and spend no token on a worker that has exited, exactly when
each finds no excess, or no token to cancel, or nobody who is leaving already and only live workers
behind the first tokens.  A single call leaves the number asked for exactly when nobody stays
anyway or it spends as many tokens on exited workers as there are leaving ones in the excess. -/
theorem retirement_exact_iff (es : List RosterEvent) :
    ((∀ c ∈ Roster.calls ⟨[]⟩ es, c.1.Exact c.2) ↔ ∀ c ∈ Roster.calls ⟨[]⟩ es, c.1.Fits c.2) ∧
    ∀ c ∈ Roster.calls ⟨[]⟩ es,
      ((c.1.retire c.2).staying = min c.1.staying (max c.2 1) ↔
        c.1.staying = 0 ∨ c.1.stale c.2 = min c.1.leaving (c.1.excess c.2)) ∧
      (c.1.Fits c.2 → c.1.staying ≤ max c.2 1 → c.1.retire c.2 = c.1) ∧
      (c.1.Fits c.2 → 0 < c.1.staying → 0 < (c.1.retire c.2).staying) := by
  refine ⟨forall₂_congr fun c _ => Roster.exact_iff c.2 c.1, fun c _ => ⟨?_, ?_, ?_⟩⟩
  · exact Roster.staying_retire_iff c.2 c.1
  · exact fun hfits => ((Roster.exact_iff c.2 c.1).2 hfits).retire_eq_self
  · exact fun hfits => ((Roster.exact_iff c.2 c.1).2 hfits).pos

/-- Four workers, two of which are asked to go, then exit before the next call. -/
theorem retirement_exact_four :
    ∀ c ∈ Roster.calls ⟨[]⟩
        [.spawn, .spawn, .spawn, .spawn, .retire 2, .exit 0, .exit 1, .retire 2],
      c.1.Exact c.2 :=
  (retirement_exact_iff _).1.2 (by decide)

/-- When the next call comes before they exit, nobody is left to stay. -/
theorem retirement_repeated :
    ∃ c ∈ Roster.calls ⟨[]⟩ [.spawn, .spawn, .spawn, .spawn, .retire 2, .retire 2],
      c.1.staying = 2 ∧ c.2 = 2 ∧ (c.1.retire c.2).staying = 0 :=
  ⟨_, List.mem_cons_of_mem _ List.mem_cons_self, by decide, rfl, by decide⟩

/-- **The last worker.**  When all calls meet the condition and workers exit only after they were
asked to go, there is always one that stays. -/
theorem last_worker_stays {r : Roster}
    (h : rosterMachine.ReachesUnder Roster.orderly ⟨[]⟩ r) (hne : r.members ≠ []) :
    0 < r.staying := by
  refine h.invariant (I := fun r => r.members ≠ [] → 0 < r.staying) (fun hnil => absurd rfl hnil)
    ?_ hne
  intro r e r' ih hord hst hne'
  cases e with
  | spawn =>
    obtain rfl := Option.some.inj hst
    simp [Roster.staying, List.countP_append]
  | exit i =>
    obtain ⟨m, hm, hret⟩ := hord
    simp only [rosterMachine, Roster.step, hm, Option.bind_some] at hst
    split_ifs at hst with hex
    obtain rfl := Option.some.inj hst
    obtain ⟨hi, hmi⟩ := List.getElem?_eq_some_iff.1 hm
    have hpos := ih (List.ne_nil_of_length_pos (Nat.zero_lt_of_lt hi))
    simpa [Roster.staying, List.countP_set hi, hmi, hret] using hpos
  | retire target =>
    obtain rfl := Option.some.inj hst
    refine ((Roster.exact_iff target r).2 hord).pos (ih fun hnil => hne' ?_)
    rw [Roster.members_retire, hnil, cancelFirst_nil]

/-! ### The driver's workers -/

theorem set_eq_self {α : Type*} {l : List α} {i : ℕ} {a : α} (h : l[i]? = some a) :
    l.set i a = l := by
  obtain ⟨hi, rfl⟩ := List.getElem?_eq_some_iff.1 h
  exact List.set_getElem_self hi

namespace Drive

variable {cfg : DriveCfg} {s s' : Drive} {r : Roster} {e : DriveEvent}

/-- The driver's workers and tokens are those of a roster, and it counts the live ones. -/
structure Enrolled (s : Drive) (r : Roster) : Prop where
  tokens : r.tokens = s.retireTokens
  exited : r.members.map Member.exited = s.workers.map fun w => decide (w.phase = .joined)
  conns : r.live = s.conns

theorem Enrolled.congr (h : s.Enrolled r) (htokens : s'.retireTokens = s.retireTokens)
    (hworkers : s'.workers = s.workers) (hconns : s'.conns = s.conns) : s'.Enrolled r where
  tokens := h.tokens.trans htokens.symm
  exited := hworkers ▸ h.exited
  conns := h.conns.trans hconns.symm

theorem Enrolled.spawn (h : s.Enrolled r) (n : ℕ) :
    ∃ r', rosterMachine.Reaches r r' ∧ (spawnWorkers n s).Enrolled r' := by
  induction n generalizing s r with
  | zero => exact ⟨r, .refl, h⟩
  | succ n ih =>
    have hone : s.spawnWorker.Enrolled ⟨r.members ++ [⟨false, false⟩]⟩ := by
      refine ⟨?_, ?_, ?_⟩
      · simp [Roster.tokens, spawnWorker, ← h.tokens]
      · simp [spawnWorker, ← h.exited, Worker.new]
      · simp [Roster.live, spawnWorker, ← h.conns]
    obtain ⟨r', hreach, hr'⟩ := ih hone
    exact ⟨r', (Machine.ReachesUnder.single (e := RosterEvent.spawn) trivial rfl).trans hreach, hr'⟩

theorem Enrolled.retire (h : s.Enrolled r) (target : ℕ) :
    (s.retire target).Enrolled (r.retire target) where
  tokens := by
    rw [Roster.tokens, Roster.members_retire, map_retired_cancelFirst]
    show retireLoop (r.live - max target 1) r.tokens = retireLoop (s.conns - max target 1) _
    rw [h.conns, h.tokens]
  exited := by
    rw [Roster.members_retire, map_exited_cancelFirst]
    exact h.exited
  conns := by
    rw [Roster.live_eq_countP_map, Roster.members_retire, map_exited_cancelFirst,
      ← Roster.live_eq_countP_map]
    exact h.conns

theorem Enrolled.join (h : s.Enrolled r) {i : ℕ} {w : Worker} {exit : WorkerExit}
    (hw : s.workers[i]? = some w) (hphase : w.phase = .exited exit) :
    ∃ r', rosterMachine.step r (.exit i) = some r' ∧ (s.onJoin i w exit).Enrolled r' := by
  obtain ⟨-, hworkers, htokens, hconns, -, -⟩ := onJoin_spec i w exit s
  have hexited : (r.members.map Member.exited)[i]? = some false := by
    rw [h.exited, List.getElem?_map, hw]
    simp [hphase]
  rw [List.getElem?_map] at hexited
  obtain ⟨m, hm, hmex⟩ := Option.map_eq_some_iff.1 hexited
  obtain ⟨hi, hmi⟩ := List.getElem?_eq_some_iff.1 hm
  refine ⟨⟨r.members.set i { m with exited := true }⟩, ?_, ?_, ?_, ?_⟩
  · simp [rosterMachine, Roster.step, hm, hmex]
  · rw [htokens, ← h.tokens, Roster.tokens, List.map_set, Roster.tokens]
    refine set_eq_self ?_
    rw [List.getElem?_map, hm]
    rfl
  · rw [hworkers, List.map_set, List.map_set, h.exited]
    simp
  · rw [hconns, ← h.conns, Roster.live, List.countP_set hi, hmi]
    simp [hmex, Roster.live]

/-- What a step does to the workers and tokens is a part of a history. -/
theorem Enrolled.step (h : s.Enrolled r) (hs : s.step cfg e = some s') :
    ∃ r', rosterMachine.Reaches r r' ∧ s'.Enrolled r' := by
  cases stepped hs with
  | moves i e w sh w' hpc hw hst =>
    refine ⟨r, .refl, h.tokens, ?_, h.conns⟩
    have hne : w.phase ≠ .joined := fun hj => by
      rw [Worker.step_joined hj] at hst
      cases hst
    rw [h.exited, List.map_set]
    refine (set_eq_self ?_).symm
    rw [List.getElem?_map, hw]
    simp [hne, Worker.step_ne_joined hst]
  | joins i w exit hpc hw hphase =>
    obtain ⟨r', hr', henr⟩ := h.join hw hphase
    exact ⟨r', .single trivial hr', henr⟩
  | spawns n hpc =>
    obtain ⟨r', hreach, henr⟩ := h.spawn (min n s.shared.plan.usefulWorkers - s.conns)
    exact ⟨r', hreach, henr.congr rfl rfl rfl⟩
  | retires d target hpc hd =>
    exact ⟨r.retire target, .single (e := .retire target) trivial rfl,
      (h.retire target).congr rfl rfl rfl⟩
  | thins target hpc htarget =>
    exact ⟨r.retire target, .single (e := .retire target) trivial rfl,
      (h.retire target).congr rfl rfl rfl⟩
  -- the rest concerns neither workers nor tokens
  | cancels => exact ⟨r, .refl, h.congr rfl rfl rfl⟩
  | quits => exact ⟨r, .refl, h.congr rfl rfl rfl⟩
  | samples => exact ⟨r, .refl, h.congr rfl rfl rfl⟩
  | ticks => exact ⟨r, .refl, h.congr rfl rfl rfl⟩
  | holds => exact ⟨r, .refl, h.congr rfl rfl rfl⟩
  | goesOn => exact ⟨r, .refl, h.congr rfl rfl rfl⟩
  | leaves => exact ⟨r, .refl, h.congr rfl rfl rfl⟩

/-- **The driver's history.**  In every run the driver's tokens and workers are those of a history
of spawns, exits and calls, and `live.conns` is the number of workers that have not exited. -/
theorem enrolled {plan : Plan} {govCfg : GovernorConfig} {k0 : ℕ} {now : Nanos}
    (h : (driveMachine cfg).Reaches (start plan govCfg k0 now) s) :
    ∃ r, rosterMachine.Reaches ⟨[]⟩ r ∧ s.Enrolled r := by
  have hstart : ∃ r, rosterMachine.Reaches ⟨[]⟩ r ∧ (start plan govCfg k0 now).Enrolled r :=
    Enrolled.spawn ⟨rfl, rfl, rfl⟩ k0
  refine h.invariant (I := fun s => ∃ r, rosterMachine.Reaches ⟨[]⟩ r ∧ s.Enrolled r) hstart ?_
  rintro s e s' ⟨r, hr, henr⟩ - hst
  obtain ⟨r', hr', henr'⟩ := henr.step hst
  exact ⟨r', hr.trans hr', henr'⟩

end Drive

end SwiftLoad
