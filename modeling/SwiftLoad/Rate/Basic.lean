import Mathlib.Algebra.BigOperators.Intervals
import Mathlib.Algebra.BigOperators.Ring.Finset
import Mathlib.Algebra.Order.Floor.Semiring
import Mathlib.Tactic.Abel
import Mathlib.Tactic.Linarith

/-!
# Token buckets

A bucket of `cap` tokens starts full.  Between two takings it is filled up again, but never beyond
`cap`; the `n`-th taking takes `g n`.  How much had flowed in before the `n`-th taking, if there was
always room, is `T n`.

* `Bucket.level` : what is in the bucket before a taking.
* `Bucket.isLeast_level` : **the level in closed form**: the least room that the last takings leave.
* `Bucket.Conforms` : takings in a row never take more than a full bucket and what flowed in.
* `Bucket.Greedy.sum_le` : **a taker that takes what it wants as far as there is some has never
  taken less than another one that conforms.**
-/

namespace SwiftLoad

namespace Bucket

open Finset

section Room

variable {K : Type*} [AddCommGroup K] {cap : K} {T g : ℕ → K} {m n : ℕ}

/-- The room that the takings from the `m`-th on leave before the `n`-th. -/
def room (cap : K) (T g : ℕ → K) (n m : ℕ) : K := cap + (T n - T m) - ∑ i ∈ Ico m n, g i

theorem room_self (n : ℕ) : room cap T g n n = cap := by
  simp [room]

theorem room_succ (hm : m ≤ n) :
    room cap T g (n + 1) m = room cap T g n m - g n + (T (n + 1) - T n) := by
  unfold room
  rw [sum_Ico_succ_top hm]
  abel

end Room

section Level

variable {K : Type*} [AddCommGroup K] [LinearOrder K] {cap : K} {T g : ℕ → K} {m n : ℕ}

/-- What is in the bucket before the `n`-th taking. -/
def level (cap : K) (T g : ℕ → K) : ℕ → K
  | 0 => cap
  | n + 1 => min (level cap T g n - g n + (T (n + 1) - T n)) cap

theorem exists_level_eq (n : ℕ) : ∃ m ≤ n, room cap T g n m = level cap T g n := by
  induction n with
  | zero => exact ⟨0, le_rfl, room_self 0⟩
  | succ n ih =>
    obtain ⟨m, hm, heq⟩ := ih
    rcases min_choice (level cap T g n - g n + (T (n + 1) - T n)) cap with h | h
    · refine ⟨m, by omega, ?_⟩
      rw [room_succ hm, heq]
      exact h.symm
    · refine ⟨n + 1, le_rfl, ?_⟩
      rw [room_self]
      exact h.symm

variable [IsOrderedAddMonoid K]

theorem level_le_room (hm : m ≤ n) : level cap T g n ≤ room cap T g n m := by
  induction n with
  | zero =>
    obtain rfl : m = 0 := by omega
    rw [room_self]
    exact le_rfl
  | succ n ih =>
    rcases Nat.le_succ_iff.1 hm with hm | rfl
    · rw [room_succ hm]
      exact (min_le_left _ _).trans (add_le_add_left (sub_le_sub_right (ih hm) _) _)
    · rw [room_self]
      exact min_le_right _ _

theorem level_le (n : ℕ) : level cap T g n ≤ cap := by
  have h : level cap T g n ≤ room cap T g n n := level_le_room le_rfl
  rwa [room_self] at h

/-- **The level in closed form.** -/
theorem isLeast_level (n : ℕ) :
    IsLeast {x | ∃ m ≤ n, room cap T g n m = x} (level cap T g n) := by
  refine ⟨exists_level_eq n, ?_⟩
  rintro _ ⟨m, hm, rfl⟩
  exact level_le_room hm

/-- Takings in a row never take more than a full bucket and what flowed in meanwhile. -/
def Conforms (cap : K) (T g : ℕ → K) : Prop :=
  ∀ m n, m ≤ n → ∑ i ∈ Ico m (n + 1), g i ≤ cap + (T n - T m)

/-- Who takes no more than there is conforms. -/
theorem conforms_of_le (h : ∀ n, g n ≤ level cap T g n) : Conforms cap T g := by
  intro m n hm
  have hle := (h n).trans (level_le_room hm)
  unfold room at hle
  rw [sum_Ico_succ_top hm]
  exact le_sub_iff_add_le'.1 hle

end Level

section Greedy

variable {K : Type*} [Field K] [LinearOrder K] [IsStrictOrderedRing K] [FloorSemiring K] {cap : K}
  {T : ℕ → K} {want g g' : ℕ → ℕ}

/-- Whole tokens are taken, as many as are wanted and there are. -/
def Greedy (cap : K) (T : ℕ → K) (want g : ℕ → ℕ) : Prop :=
  ∀ n, g n = min (want n) ⌊level cap T (fun i => (g i : K)) n⌋₊

namespace Greedy

theorem le_level (h : Greedy cap T want g) (hcap : 0 ≤ cap) (hT : Monotone T) (n : ℕ) :
    (g n : K) ≤ level cap T (fun i => (g i : K)) n := by
  have hfloor : ∀ n, 0 ≤ level cap T (fun i => (g i : K)) n →
      (g n : K) ≤ level cap T (fun i => (g i : K)) n := fun n hn => by
    have hle : g n ≤ ⌊level cap T (fun i => (g i : K)) n⌋₊ := (h n).trans_le (min_le_right _ _)
    exact (Nat.cast_le.2 hle).trans (Nat.floor_le hn)
  refine hfloor n ?_
  induction n with
  | zero => exact hcap
  | succ n ih =>
    have hstep : 0 ≤ T (n + 1) - T n := sub_nonneg.2 (hT n.le_succ)
    exact le_min (add_nonneg (sub_nonneg.2 (hfloor n ih)) hstep) hcap

/-- It conforms. -/
theorem conforms (h : Greedy cap T want g) (hcap : 0 ≤ cap) (hT : Monotone T) :
    Conforms cap T fun i => (g i : K) :=
  conforms_of_le (h.le_level hcap hT)

/-- **Nobody who conforms is ever ahead.** -/
theorem sum_le (h : Greedy cap T want g) (hwant : ∀ n, g' n ≤ want n)
    (hconf : Conforms cap T fun i => (g' i : K)) (n : ℕ) :
    ∑ i ∈ range n, g' i ≤ ∑ i ∈ range n, g i := by
  induction n using Nat.strongRecOn with
  | ind n ih =>
    cases n with
    | zero => exact le_rfl
    | succ n =>
      rcases min_choice (want n) ⌊level cap T (fun i => (g i : K)) n⌋₊ with hn | hn
      · -- what was wanted was taken
        rw [sum_range_succ, sum_range_succ, (h n).trans hn]
        exact Nat.add_le_add (ih n n.lt_succ_self) (hwant n)
      · -- the bucket was emptied: since the taking that decides its level nobody took more
        obtain ⟨m, hm, hroom⟩ : ∃ m ≤ n, room cap T (fun i => (g i : K)) n m =
          level cap T (fun i => (g i : K)) n := exists_level_eq n
        have hother := hconf m n hm
        have hlast : ∑ i ∈ Ico m (n + 1), g' i ≤ ∑ i ∈ Ico m n, g i + g n := by
          have hfloor := Nat.lt_floor_add_one (level cap T (fun i => (g i : K)) n)
          rw [← hn, ← h n] at hfloor
          unfold room at hroom
          dsimp only at hroom hother
          have hlt : ((∑ i ∈ Ico m (n + 1), g' i : ℕ) : K) <
              ((∑ i ∈ Ico m n, g i + g n + 1 : ℕ) : K) := by
            rw [Nat.cast_add, Nat.cast_add, Nat.cast_sum, Nat.cast_sum, Nat.cast_one]
            linarith
          exact Nat.lt_succ_iff.1 (Nat.cast_lt.1 hlt)
        have hfirst := ih m (by omega)
        calc ∑ i ∈ range (n + 1), g' i
            = ∑ i ∈ range m, g' i + ∑ i ∈ Ico m (n + 1), g' i :=
              (sum_range_add_sum_Ico _ (by omega)).symm
          _ ≤ ∑ i ∈ range m, g i + (∑ i ∈ Ico m n, g i + g n) := Nat.add_le_add hfirst hlast
          _ = ∑ i ∈ range (n + 1), g i := by
              rw [← sum_Ico_succ_top hm, sum_range_add_sum_Ico _ (by omega)]

end Greedy

end Greedy

end Bucket

end SwiftLoad
