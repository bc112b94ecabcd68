import Mathlib.Data.Nat.Digits.Defs

/-!
# Numbers in bytes of seven bits

A number is written in base 128, the lowest digit first, one digit a byte.  Every byte but the last
has its high bit set (`Number`), so that a text of several numbers can be split in one way only
(`Number.unique`).

* `Base128.value` : the sum of the digits, each times its power of 128.
* `Base128.value_append` : the value of two parts, one after the other.
* `Base128.Number` : the bytes of one number.
-/

namespace SwiftLoad

namespace Base128

variable {a b s t : List UInt8} {x : UInt8} {n : ℕ}

/-! ### Values -/

/-- The sum of `(b_i mod 128) * 128 ^ i`. -/
def value (b : List UInt8) : ℕ := Nat.ofDigits 128 (b.map fun x => x.toNat % 128)

@[simp] theorem value_nil : value [] = 0 := rfl

theorem value_cons (x : UInt8) (b : List UInt8) :
    value (x :: b) = x.toNat % 128 + 128 * value b := Nat.ofDigits_cons

theorem value_append (a b : List UInt8) :
    value (a ++ b) = value a + 128 ^ a.length * value b := by
  rw [value, List.map_append, Nat.ofDigits_append, List.length_map]
  rfl

@[simp] theorem value_singleton (x : UInt8) : value [x] = x.toNat % 128 := by
  simp [value_cons]

theorem value_lt (b : List UInt8) : value b < 128 ^ b.length := by
  have hdigit : ∀ d ∈ b.map fun x : UInt8 => x.toNat % 128, d < 128 := by
    intro d hd
    obtain ⟨x, -, rfl⟩ := List.mem_map.1 hd
    exact Nat.mod_lt _ (by decide)
  have hlt := Nat.ofDigits_lt_base_pow_length (by decide) hdigit
  rwa [List.length_map] at hlt

/-! ### The bytes of one number -/

/-- The bytes of one number: all but the last go on. -/
inductive Number : List UInt8 → Prop
  | last {x : UInt8} (h : x.toNat < 128) : Number [x]
  | more {x : UInt8} {b : List UInt8} (h : 128 ≤ x.toNat) (hb : Number b) : Number (x :: b)

theorem Number.ne_nil (h : Number b) : b ≠ [] := by
  cases h <;> simp

/-- The last byte apart from the others. -/
theorem number_iff : Number b ↔
    ∃ init x, b = init ++ [x] ∧ (∀ y ∈ init, 128 ≤ y.toNat) ∧ x.toNat < 128 := by
  constructor
  · intro h
    induction h with
    | @last x h => exact ⟨[], x, rfl, by simp, h⟩
    | @more y b h hb ih =>
      obtain ⟨init, x, rfl, hinit, hx⟩ := ih
      exact ⟨y :: init, x, rfl, List.forall_mem_cons.2 ⟨h, hinit⟩, hx⟩
  · rintro ⟨init, x, rfl, hinit, hx⟩
    induction init with
    | nil => exact .last hx
    | cons y init ih =>
      obtain ⟨hy, hinit⟩ := List.forall_mem_cons.1 hinit
      exact .more hy (ih hinit)

/-- A text starts with one number at most. -/
theorem Number.unique (ha : Number a) (hb : Number b) (h : a ++ s = b ++ t) : a = b ∧ s = t := by
  induction ha generalizing b with
  | @last x hx =>
    cases hb with
    | last hy =>
      obtain ⟨rfl, rfl⟩ := List.cons.inj h
      exact ⟨rfl, rfl⟩
    | more hy hb =>
      obtain ⟨rfl, -⟩ := List.cons.inj h
      exact absurd hx (Nat.not_lt.2 hy)
  | @more x a hx ha ih =>
    cases hb with
    | last hy =>
      obtain ⟨rfl, -⟩ := List.cons.inj h
      exact absurd hy (Nat.not_lt.2 hx)
    | more hy hb =>
      obtain ⟨rfl, htail⟩ := List.cons.inj h
      obtain ⟨rfl, rfl⟩ := ih hb htail
      exact ⟨rfl, rfl⟩

/-- What is left of a number after some of its bytes is a number. -/
theorem Number.drop (h : Number b) (hn : n < b.length) : Number (b.drop n) := by
  induction h generalizing n with
  | last hx =>
    obtain rfl : n = 0 := by simpa using hn
    exact .last hx
  | @more x b hx hb ih =>
    cases n with
    | zero => exact .more hx hb
    | succ n => exact ih (by simpa using hn)

/-- The last digit of a number decides whether it passes a power of 128. -/
theorem le_value_iff (k : ℕ) :
    k * 128 ^ a.length ≤ value (a ++ [x]) ↔ k ≤ x.toNat % 128 := by
  have hlt := value_lt a
  have hpos : 0 < 128 ^ a.length := Nat.pow_pos (by decide)
  rw [value_append, value_singleton, Nat.mul_comm k]
  constructor
  · intro h
    by_contra hk
    have hle : 128 ^ a.length * (x.toNat % 128 + 1) ≤ 128 ^ a.length * k :=
      Nat.mul_le_mul_left _ (by omega)
    rw [Nat.mul_succ] at hle
    omega
  · intro hk
    exact (Nat.mul_le_mul_left _ hk).trans (Nat.le_add_left _ _)

end Base128

end SwiftLoad
