import SwiftLoad.Testserver.Serve
import SwiftLoad.Util.Rate

/-!
# The throttle of the test server

`Bucket` of the test server, per connection or shared by all, with rationals in place of floating
point.  Bytes are taken out at once, even if there are too few, and sent after a wait.

* `Throttle.reserve` : the time to wait before some bytes may be sent.
* `Throttle.isLeast_wait` : **the wait is the shortest that keeps the rate.**
-/

namespace SwiftLoad

namespace Testserver

open Finset

/-- `Bucket`. -/
structure Throttle where
  tokens : ℚ
  rate : ℚ
  cap : ℚ
  last : Nanos

namespace Throttle

/-- The size of a bucket: a tenth of a second, but not less than two pieces. -/
def burst (rate : ℚ) : ℚ := max (rate / 10) (chunkSize * 2)

/-- `Bucket::new`. -/
def new (rate : ℚ) (now : Nanos) : Throttle where
  tokens := burst rate
  rate := rate
  cap := burst rate
  last := now

/-- `reserve`: the seconds to wait before `n` bytes may be sent, consuming them. -/
def reserve (n : ℕ) (now : Nanos) (b : Throttle) : ℚ × Throttle :=
  let tokens := min (b.tokens + seconds (now - b.last) * b.rate) b.cap - n
  (if 0 ≤ tokens then 0 else -tokens / b.rate, { b with last := now, tokens := tokens })

variable (rate : ℚ) (created : Nanos) (size : ℕ → ℕ) (time : ℕ → Nanos)

/-- The bucket before the `n`-th call. -/
def before : ℕ → Throttle
  | 0 => new rate created
  | n + 1 => ((before n).reserve (size n) (time n)).2

/-- How long the `n`-th call waits. -/
def wait (n : ℕ) : ℚ := ((before rate created size time n).reserve (size n) (time n)).1

/-- Waiting for `w` before the `n`-th piece keeps the rate: since any call no more is sent than a
full bucket and what the time allows. -/
def Keeps (n : ℕ) (w : ℚ) : Prop :=
  ∀ m ≤ n, ((∑ i ∈ Ico m (n + 1), size i : ℕ) : ℚ) ≤
    burst rate + rate * (seconds (time n - time m) + w)

variable {rate created size time}

theorem rate_before (n : ℕ) : (before rate created size time n).rate = rate := by
  induction n with
  | zero => rfl
  | succ n ih => exact ih

theorem cap_before (n : ℕ) : (before rate created size time n).cap = burst rate := by
  induction n with
  | zero => rfl
  | succ n ih => exact ih

theorem tokens_succ_eq (n : ℕ) : (before rate created size time (n + 1)).tokens =
    min ((before rate created size time n).tokens +
      seconds (time n - (before rate created size time n).last) * rate) (burst rate) - size n := by
  show min ((before rate created size time n).tokens +
    seconds (time n - (before rate created size time n).last) *
      (before rate created size time n).rate) (before rate created size time n).cap - size n = _
  rw [rate_before, cap_before]

/-- The bucket is a token bucket that can be overdrawn. -/
theorem tokens_succ (hrate : 0 < rate) (htime : Monotone time) (n : ℕ) :
    (before rate created size time (n + 1)).tokens =
      Bucket.level (burst rate) (fun n => seconds (time n) * rate) (fun i => (size i : ℚ)) n -
        size n := by
  induction n with
  | zero =>
    have hflow : 0 ≤ seconds (time 0 - created) * rate :=
      mul_nonneg (div_nonneg (Nat.cast_nonneg _) (Nat.cast_nonneg _)) hrate.le
    rw [tokens_succ_eq]
    show min (burst rate + seconds (time 0 - created) * rate) (burst rate) - _ = _
    rw [min_eq_right (le_add_of_nonneg_right hflow)]
    rfl
  | succ n ih =>
    have hflow : seconds (time (n + 1) - time n) * rate =
        seconds (time (n + 1)) * rate - seconds (time n) * rate := by
      rw [seconds_sub (htime n.le_succ), sub_mul]
    have hlast : (before rate created size time (n + 1)).last = time n := rfl
    rw [tokens_succ_eq, hlast, ih, hflow]
    rfl

theorem keeps_iff (hrate : 0 < rate) (htime : Monotone time) {n : ℕ} {w : ℚ} :
    Keeps rate size time n w ↔ 0 ≤ (before rate created size time (n + 1)).tokens + rate * w := by
  have hroom : ∀ m ≤ n, (((∑ i ∈ Ico m (n + 1), size i : ℕ) : ℚ) ≤
      burst rate + rate * (seconds (time n - time m) + w) ↔
        size n - rate * w ≤ Bucket.room (burst rate) (fun n => seconds (time n) * rate)
          (fun i => (size i : ℚ)) n m) := fun m hm => by
    rw [sum_Ico_succ_top hm, seconds_sub (htime hm), Nat.cast_add, Nat.cast_sum]
    unfold Bucket.room
    constructor <;> intro h <;> linarith
  have hbound : Keeps rate size time n w ↔ size n - rate * w ∈ lowerBounds {x | ∃ m ≤ n,
      Bucket.room (burst rate) (fun n => seconds (time n) * rate) (fun i => (size i : ℚ)) n m =
        x} := by
    constructor
    · rintro h _ ⟨m, hm, rfl⟩
      exact (hroom m hm).1 (h m hm)
    · intro h m hm
      exact (hroom m hm).2 (h ⟨m, hm, rfl⟩)
  rw [hbound, ← le_isGLB_iff (Bucket.isLeast_level n).isGLB, tokens_succ hrate htime]
  constructor <;> intro h <;> linarith

/-- **The throttle.**  Whatever is sent at whatever times, the wait before a piece is the shortest
after which the rate is kept: since any earlier piece no more was sent than a full bucket and what
the time allows. -/
theorem isLeast_wait (hrate : 0 < rate) (created : Nanos) (size : ℕ → ℕ) (htime : Monotone time)
    (n : ℕ) : IsLeast {w | 0 ≤ w ∧ Keeps rate size time n w} (wait rate created size time n) := by
  have hwait : wait rate created size time n =
      if 0 ≤ (before rate created size time (n + 1)).tokens then 0
      else -(before rate created size time (n + 1)).tokens / rate := by
    show (if 0 ≤ (before rate created size time (n + 1)).tokens then (0 : ℚ)
      else -(before rate created size time (n + 1)).tokens /
        (before rate created size time n).rate) = _
    rw [rate_before]
  have hkeeps : ∀ w, Keeps rate size time n w ↔
      0 ≤ (before rate created size time (n + 1)).tokens + rate * w := fun w =>
    keeps_iff hrate htime
  generalize (before rate created size time (n + 1)).tokens = tokens at hwait hkeeps
  rw [hwait]
  split_ifs with htokens
  · exact ⟨⟨le_rfl, (hkeeps 0).2 (by linarith)⟩, fun w hw => hw.1⟩
  · have hneg : 0 ≤ -tokens / rate := div_nonneg (by linarith) hrate.le
    refine ⟨⟨hneg, (hkeeps _).2 ?_⟩, fun w hw => ?_⟩
    · rw [mul_div_cancel₀ _ hrate.ne']
      linarith
    · rw [div_le_iff₀ hrate]
      have := (hkeeps w).1 hw.2
      linarith

/-- A thousand bytes a second, asked for a piece every second. -/
theorem isLeast_wait_slow : IsLeast {w | 0 ≤ w ∧ Keeps 1000 (fun _ => chunkSize) secs 2 w}
    (wait 1000 0 (fun _ => chunkSize) secs 2) :=
  isLeast_wait (by norm_num) 0 (fun _ => chunkSize) (fun _ _ h => Nat.mul_le_mul_right _ h) 2

end Throttle

end Testserver

end SwiftLoad
