import Mathlib.Algebra.Order.BigOperators.Group.Finset
import SwiftLoad.Config

/-!
# Exponential backoff

`util/backoff.rs`: the window that the delay before a retry is drawn from.

* `ceilingFor_eq` : the window doubles with every attempt up to the cap, whatever overflows.
* `delayFor_le`, `delayFor_greatest` : a delay lies in its window and can reach the end of it.
-/

namespace SwiftLoad

/-- The largest `u32`. -/
def u32Max : ℕ := 2 ^ 32 - 1

/-- `Duration::MAX`. -/
def durationMax : Nanos := secs u64Max + 999999999

/-- `Backoff`. -/
structure Backoff where
  base : Nanos := millis 500
  cap : Nanos := secs 30
  maxAttempts : ℕ := 8
deriving DecidableEq, Repr

/-- A number drawn uniformly from `0..=n`. -/
structure Draw where
  pick : ℕ → ℕ
  le : ∀ n, pick n ≤ n

/-- The largest number each time. -/
def Draw.greatest : Draw := ⟨id, fun _ => le_rfl⟩

namespace Backoff

variable (b : Backoff)

/-- `Duration::checked_mul`. -/
def checkedMul (d : Nanos) (k : ℕ) : Option Nanos :=
  if d * k ≤ durationMax then some (d * k) else none

/-- `1u32.checked_shl`. -/
def checkedShl (shift : ℕ) : Option ℕ := if shift < 32 then some (2 ^ shift) else none

/-- `ceiling_for`: the end of the delay window for an attempt, before jitter. -/
def ceilingFor (attempt : ℕ) : Nanos :=
  let shift := min attempt 32
  let scaled := (checkedMul b.base ((checkedShl shift).getD u32Max)).getD b.cap
  min scaled b.cap

/-- `delay_for`: whole milliseconds within the window, counted in a `u64`. -/
def delayFor (draw : Draw) (attempt : ℕ) : Nanos :=
  let ms := b.ceilingFor attempt / millis 1 % 2 ^ 64
  if ms = 0 then 0 else millis (draw.pick ms)

/-- `exhausted`. -/
def exhausted (attempt : ℕ) : Bool := decide (b.maxAttempts ≤ attempt)

variable {b} {attempt : ℕ}

theorem checkedShl_getD (attempt : ℕ) :
    (checkedShl (min attempt 32)).getD u32Max = min (2 ^ attempt) u32Max := by
  unfold checkedShl
  by_cases h : attempt < 32
  · have hpow : 2 ^ attempt ≤ 2 ^ 31 := Nat.pow_le_pow_right (by decide) (by omega)
    have hmax : u32Max = 2 ^ 32 - 1 := rfl
    rw [Nat.min_eq_left h.le, if_pos h, Option.getD_some]
    omega
  · have hpow : 2 ^ 32 ≤ 2 ^ attempt := Nat.pow_le_pow_right (by decide) (by omega)
    have hmax : u32Max = 2 ^ 32 - 1 := rfl
    rw [Nat.min_eq_right (by omega), if_neg (by omega), Option.getD_none]
    omega

/-- The window doubles with every attempt, as far as the factor and the cap go. -/
theorem ceilingFor_eq (hcap : b.cap ≤ durationMax) (attempt : ℕ) :
    b.ceilingFor attempt = min (b.base * min (2 ^ attempt) u32Max) b.cap := by
  unfold ceilingFor
  dsimp only
  rw [checkedShl_getD]
  unfold checkedMul
  by_cases hfits : b.base * min (2 ^ attempt) u32Max ≤ durationMax
  · rw [if_pos hfits, Option.getD_some]
  · have hover : b.cap ≤ b.base * min (2 ^ attempt) u32Max :=
      hcap.trans (Nat.not_le.1 hfits).le
    rw [if_neg hfits, Option.getD_none, Nat.min_self, Nat.min_eq_right hover]

/-- A delay lies in its window. -/
theorem delayFor_le (b : Backoff) (draw : Draw) (attempt : ℕ) :
    b.delayFor draw attempt ≤ b.ceilingFor attempt := by
  unfold delayFor
  dsimp only
  split_ifs with hzero
  · exact Nat.zero_le _
  · calc millis (draw.pick _) ≤ millis (b.ceilingFor attempt / millis 1 % 2 ^ 64) :=
          Nat.mul_le_mul_right _ (draw.le _)
      _ ≤ millis (b.ceilingFor attempt / millis 1) := Nat.mul_le_mul_right _ (Nat.mod_le _ _)
      _ ≤ b.ceilingFor attempt := Nat.div_mul_le_self _ (millis 1)

/-- The delay reaches the end of a window of whole milliseconds. -/
theorem delayFor_greatest (hwhole : millis 1 ∣ b.ceilingFor attempt)
    (hsmall : b.ceilingFor attempt / millis 1 < 2 ^ 64) :
    b.delayFor .greatest attempt = b.ceilingFor attempt := by
  unfold delayFor
  dsimp only
  rw [Nat.mod_eq_of_lt hsmall]
  have hback : b.ceilingFor attempt / millis 1 * millis 1 = b.ceilingFor attempt :=
    Nat.div_mul_cancel hwhole
  split_ifs with hzero
  · rw [hzero, Nat.zero_mul] at hback
    exact hback
  · exact hback

end Backoff

end SwiftLoad
