import Mathlib.Data.Rat.Floor
import SwiftLoad.Config
import SwiftLoad.Rate.Basic

/-!
# The speed limiter

`TokenBucket` of `util/rate.rs`, with rationals in place of floating point.

* `TokenBucket.take` : what is allowed right now.
* `TokenBucket.refilled_eq_level` : it is a token bucket of one second.
* `TokenBucket.grants_best` : **the limiter holds the rate, and nobody who holds it is ahead.**
-/

namespace SwiftLoad

open Finset

/-- `as_secs_f64`. -/
def seconds (d : Nanos) : ℚ := (d : ℚ) / secs 1

theorem seconds_sub {d d' : Nanos} (h : d' ≤ d) : seconds (d - d') = seconds d - seconds d' := by
  unfold seconds
  rw [Nat.cast_sub h, sub_div]

/-- `TokenBucket`. -/
structure TokenBucket where
  capacity : ℕ
  tokens : ℚ
  refillPerSec : ℕ
  last : Option Nanos := none

namespace TokenBucket

/-- `TokenBucket::new`. -/
def new (bytesPerSec : ℕ) : TokenBucket where
  capacity := max bytesPerSec 1
  tokens := bytesPerSec
  refillPerSec := bytesPerSec

/-- What is in the bucket at a time. -/
def refilled (now : Nanos) (b : TokenBucket) : ℚ :=
  match b.last with
  | some last => min (b.tokens + seconds (now - last) * b.refillPerSec) b.capacity
  | none => b.tokens

/-- `take`: take up to `want` bytes; how many are allowed right now, possibly none. -/
def take (want : ℕ) (now : Nanos) (b : TokenBucket) : ℕ × TokenBucket :=
  let tokens := b.refilled now
  let granted := min want ⌊tokens⌋₊
  (granted, { b with last := some now, tokens := tokens - granted })

variable (bytesPerSec : ℕ) (want : ℕ → ℕ) (time : ℕ → Nanos)

/-- The bucket before the `n`-th call. -/
def before : ℕ → TokenBucket
  | 0 => new bytesPerSec
  | n + 1 => ((before n).take (want n) (time n)).2

/-- What the `n`-th call is granted. -/
def grants (n : ℕ) : ℕ := ((before bytesPerSec want time n).take (want n) (time n)).1

/-- What is granted holds the rate: in any interval no more than one second of it and what the
interval allows. -/
def Holds (g : ℕ → ℕ) : Prop :=
  ∀ m n, m ≤ n → ((∑ i ∈ Ico m (n + 1), g i : ℕ) : ℚ) ≤
    bytesPerSec * (1 + seconds (time n - time m))

/-- What has flowed in until the `n`-th call. -/
def inflow (n : ℕ) : ℚ := seconds (time n) * bytesPerSec

variable {bytesPerSec want time}

theorem monotone_inflow (htime : Monotone time) : Monotone (inflow bytesPerSec time) := by
  intro m n hmn
  have hsub : 0 ≤ seconds (time n - time m) := div_nonneg (Nat.cast_nonneg _) (Nat.cast_nonneg _)
  rw [seconds_sub (htime hmn)] at hsub
  unfold inflow
  gcongr
  linarith

theorem capacity_before (n : ℕ) :
    (before bytesPerSec want time n).capacity = max bytesPerSec 1 := by
  induction n with
  | zero => rfl
  | succ n ih => exact ih

theorem refillPerSec_before (n : ℕ) :
    (before bytesPerSec want time n).refillPerSec = bytesPerSec := by
  induction n with
  | zero => rfl
  | succ n ih => exact ih

theorem refilled_succ (n : ℕ) : (before bytesPerSec want time (n + 1)).refilled (time (n + 1)) =
    min ((before bytesPerSec want time n).refilled (time n) - grants bytesPerSec want time n +
      seconds (time (n + 1) - time n) * bytesPerSec) (max bytesPerSec 1 : ℕ) := by
  show min ((before bytesPerSec want time n).refilled (time n) - grants bytesPerSec want time n +
    seconds (time (n + 1) - time n) * (before bytesPerSec want time n).refillPerSec)
      (before bytesPerSec want time n).capacity = _
  rw [refillPerSec_before, capacity_before]

/-- The bucket is a token bucket of one second. -/
theorem refilled_eq_level (htime : Monotone time) (n : ℕ) :
    (before bytesPerSec want time n).refilled (time n) =
      Bucket.level (bytesPerSec : ℚ) (inflow bytesPerSec time)
        (fun i => (grants bytesPerSec want time i : ℚ)) n := by
  induction n with
  | zero => rfl
  | succ n ih =>
    have hflow : seconds (time (n + 1) - time n) * bytesPerSec =
        inflow bytesPerSec time (n + 1) - inflow bytesPerSec time n := by
      rw [seconds_sub (htime n.le_succ), sub_mul]
      rfl
    rw [refilled_succ, ih, hflow, Bucket.level]
    rcases Nat.eq_zero_or_pos bytesPerSec with rfl | hpos
    · -- an empty bucket stays so
      have hzero : ∀ k, inflow 0 time k = 0 := fun k => by simp [inflow]
      have hlevel : Bucket.level ((0 : ℕ) : ℚ) (inflow 0 time)
          (fun i => (grants 0 want time i : ℚ)) n ≤ (0 : ℕ) := Bucket.level_le n
      have hgrant : (0 : ℚ) ≤ grants 0 want time n := Nat.cast_nonneg _
      have hle : Bucket.level ((0 : ℕ) : ℚ) (inflow 0 time)
          (fun i => (grants 0 want time i : ℚ)) n - grants 0 want time n +
            (inflow 0 time (n + 1) - inflow 0 time n) ≤ (0 : ℕ) := by
        rw [hzero, hzero]
        linarith
      rw [min_eq_left hle, min_eq_left (hle.trans (Nat.cast_le.2 (Nat.zero_le _)))]
    · rw [Nat.max_eq_left hpos]

theorem greedy_grants (htime : Monotone time) :
    Bucket.Greedy (bytesPerSec : ℚ) (inflow bytesPerSec time) want
      (grants bytesPerSec want time) := by
  intro n
  rw [← refilled_eq_level htime]
  rfl

theorem holds_iff (htime : Monotone time) {g : ℕ → ℕ} : Holds bytesPerSec time g ↔
    Bucket.Conforms (bytesPerSec : ℚ) (inflow bytesPerSec time) fun i => (g i : ℚ) := by
  unfold Holds Bucket.Conforms
  refine forall_congr' fun m => forall_congr' fun n => imp_congr_right fun hmn => ?_
  have hflow : (bytesPerSec : ℚ) * (1 + seconds (time n - time m)) =
      bytesPerSec + (inflow bytesPerSec time n - inflow bytesPerSec time m) := by
    rw [seconds_sub (htime hmn)]
    unfold inflow
    ring
  rw [hflow, Nat.cast_sum]

/-- **The speed limiter.**  Whatever is asked for, at whatever times: in any interval it grants no
more than one second of the rate and what the interval allows, and nobody else who never exceeds
that, and never takes more than was asked for, has been granted more at any time. -/
theorem grants_best (bytesPerSec : ℕ) (want : ℕ → ℕ) (htime : Monotone time) :
    Holds bytesPerSec time (grants bytesPerSec want time) ∧
      ∀ g : ℕ → ℕ, (∀ n, g n ≤ want n) → Holds bytesPerSec time g →
        ∀ n, ∑ i ∈ range n, g i ≤ ∑ i ∈ range n, grants bytesPerSec want time i := by
  have hgreedy : Bucket.Greedy (bytesPerSec : ℚ) (inflow bytesPerSec time) want
      (grants bytesPerSec want time) := greedy_grants htime
  refine ⟨?_, fun g hwant hholds => hgreedy.sum_le hwant ((holds_iff htime).1 hholds)⟩
  exact (holds_iff htime).2 (hgreedy.conforms (Nat.cast_nonneg _) (monotone_inflow htime))

/-- Ten bytes a second, asked for six of them twice at once and a second later. -/
theorem grants_best_ten :
    Holds 10 (fun n => secs (n / 2)) (grants 10 (fun _ => 6) fun n => secs (n / 2)) ∧
      ∀ g : ℕ → ℕ, (∀ n, g n ≤ 6) → Holds 10 (fun n => secs (n / 2)) g →
        ∀ n, ∑ i ∈ range n, g i ≤
          ∑ i ∈ range n, grants 10 (fun _ => 6) (fun n => secs (n / 2)) i :=
  grants_best 10 (fun _ => 6) fun _ _ hmn => Nat.mul_le_mul_right _ (Nat.div_le_div_right hmn)

end TokenBucket

end SwiftLoad
