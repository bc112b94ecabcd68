import SwiftLoad.Bytes.Base128
import SwiftLoad.Util.Codec

/-!
# Varints, and a set through the codec

`put_varint` writes a number in bytes of seven bits and `get_varint` reads it back into 64 bits.
What is written is read as it was, up to the last number that fits; but the last of ten bytes has
room for one bit only, and the reader drops the others without a word.

* `getVarint_number` : what `get_varint` does to the bytes of one number.
* `LosesBits` : nine bytes that go on and a last one above 1.
* `encode_roundtrip` : **what `encode` writes, `decode` reads.**
* `varint_exact_iff` : **reading is exact or fails just where no bits are lost, and a set that is
  accepted is the one that the bytes denote just when no bits are lost anywhere.**
-/

namespace SwiftLoad

open Ranges Base128

variable {bytes used rest : List UInt8} {b : UInt8} {v k n : ℕ}

/-- `put_varint`. -/
def putVarint (v : ℕ) : List UInt8 :=
  if 0x80 ≤ v then (UInt8.ofNat v ||| 0x80) :: putVarint (v >>> 7) else [UInt8.ofNat v]
termination_by v
decreasing_by rw [Nat.shiftRight_eq_div_pow]; omega

/-! ### Bytes and bits -/

theorem toNat_and_low (b : UInt8) : (b &&& 0x7f).toNat = b.toNat % 128 := by
  rw [UInt8.toNat_and]
  exact Nat.and_two_pow_sub_one_eq_mod b.toNat 7

theorem and_high_eq_zero (b : UInt8) : b &&& 0x80 = 0 ↔ b.toNat < 128 := by
  have hbits : ∀ i : Fin 256, i.val &&& 0x80 = 0 ↔ i.val < 128 := by decide +kernel
  rw [← UInt8.toNat_inj, UInt8.toNat_and]
  exact hbits ⟨b.toNat, b.toNat_lt⟩

theorem toNat_or_high (b : UInt8) : (b ||| 0x80).toNat = 128 + b.toNat % 128 := by
  have hbits : ∀ i : Fin 256, i.val ||| 0x80 = 128 + i.val % 128 := by decide +kernel
  rw [UInt8.toNat_or]
  exact hbits ⟨b.toNat, b.toNat_lt⟩

/-- Bits put above those that are there: a sum, of which 64 bits are kept. -/
theorem or_shiftLeft {s : ℕ} (hv : v < 2 ^ s) (hs : s ≤ 64) (d : ℕ) :
    v ||| d <<< s % 2 ^ 64 = (v + 2 ^ s * d) % 2 ^ 64 := by
  have hpow : 2 ^ 64 = 2 ^ s * 2 ^ (64 - s) := by rw [← Nat.pow_add, Nat.add_sub_cancel' hs]
  have hpos : 0 < 2 ^ s := Nat.two_pow_pos s
  rw [Nat.shiftLeft_eq, Nat.mul_comm d, hpow, Nat.mul_mod_mul_left, Nat.or_comm,
    ← Nat.two_pow_add_eq_or_of_lt hv, Nat.mod_mul, Nat.add_mul_mod_self_left,
    Nat.add_mul_div_left _ _ hpos, Nat.mod_eq_of_lt hv, Nat.div_eq_of_lt hv, Nat.zero_add,
    Nat.add_comm]

/-! ### Writing -/

theorem putVarint_spec (v : ℕ) : Number (putVarint v) ∧ value (putVarint v) = v := by
  induction v using Nat.strongRecOn with
  | ind v ih =>
    rw [putVarint]
    split_ifs with hv
    · have hdiv : v >>> 7 = v / 128 := Nat.shiftRight_eq_div_pow v 7
      obtain ⟨hnum, hval⟩ := ih (v >>> 7) (by omega)
      refine ⟨.more (by rw [toNat_or_high]; omega) hnum, ?_⟩
      rw [value_cons, hval, toNat_or_high, UInt8.toNat_ofNat', hdiv]
      omega
    · have hbyte : (UInt8.ofNat v).toNat = v := by
        rw [UInt8.toNat_ofNat']
        omega
      exact ⟨.last (by omega), by rw [value_singleton, hbyte]; omega⟩

/-! ### Reading -/

theorem getVarintFrom_number (h : Number used) (hv : v < 128 ^ k) (hk : k + used.length ≤ 10)
    (rest : List UInt8) :
    getVarintFrom v (7 * k) (used ++ rest) = .ok ((v + 128 ^ k * value used) % 2 ^ 64, rest) := by
  have hpow : ∀ k, (128 : ℕ) ^ k = 2 ^ (7 * k) := fun k => (Nat.pow_mul 2 7 k).symm
  induction h generalizing v k with
  | @last x hx =>
    simp only [List.length_singleton] at hk
    rw [hpow] at hv ⊢
    simp only [List.singleton_append, getVarintFrom]
    rw [if_neg (by omega), if_pos ((and_high_eq_zero x).2 hx), toNat_and_low,
      or_shiftLeft hv (by omega), value_singleton]
  | @more x used hx hused ih =>
    have hlen := List.length_pos_iff.2 hused.ne_nil
    simp only [List.length_cons] at hk
    simp only [List.cons_append, getVarintFrom]
    rw [if_neg (by omega), if_neg (mt (and_high_eq_zero x).1 (by omega)), toNat_and_low,
      or_shiftLeft (by rwa [← hpow]) (by omega), ← hpow]
    -- there is room for the digit
    have hdigit : v + 128 ^ k * (x.toNat % 128) < 128 ^ (k + 1) := by
      have hmul := Nat.mul_le_mul_left (128 ^ k) (show x.toNat % 128 ≤ 127 by omega)
      rw [Nat.pow_succ]
      omega
    have hfits : (128 : ℕ) ^ (k + 1) ≤ 2 ^ 64 := by
      rw [hpow]
      exact Nat.pow_le_pow_right (by decide) (by omega)
    rw [Nat.mod_eq_of_lt (hdigit.trans_le hfits), show 7 * k + 7 = 7 * (k + 1) by omega,
      ih hdigit (by omega), value_cons, Nat.pow_succ]
    congr 3
    rw [Nat.mul_add, Nat.mul_assoc, Nat.add_assoc]

theorem getVarintFrom_long (h : Number used) (hk : 10 < k + used.length) (rest : List UInt8) :
    getVarintFrom v (7 * k) (used ++ rest) = .error .overflow := by
  induction h generalizing v k with
  | last hx =>
    simp only [List.length_singleton] at hk
    exact if_pos (by omega)
  | @more x used hx hused ih =>
    simp only [List.length_cons] at hk
    simp only [List.cons_append, getVarintFrom]
    split_ifs with h₁ h₂
    · rfl
    · exact absurd ((and_high_eq_zero x).1 h₂) (by omega)
    · exact ih (k := k + 1) (by omega)

theorem exists_number_of_getVarintFrom {shift : ℕ}
    (h : getVarintFrom v shift bytes = .ok (n, rest)) :
    ∃ used, Number used ∧ bytes = used ++ rest := by
  induction bytes generalizing v shift with
  | nil => cases h
  | cons b bytes ih =>
    simp only [getVarintFrom] at h
    split_ifs at h with h₁ h₂
    · obtain ⟨-, rfl⟩ := Prod.mk.inj (Except.ok.inj h)
      exact ⟨[b], .last ((and_high_eq_zero b).1 h₂), rfl⟩
    · obtain ⟨used, hused, rfl⟩ := ih h
      refine ⟨b :: used, .more ?_ hused, rfl⟩
      rw [and_high_eq_zero] at h₂
      omega

/-- `get_varint` at a number: up to ten bytes are read into 64 bits, and more overflow. -/
theorem getVarint_number (h : Number used) (rest : List UInt8) :
    getVarint (used ++ rest) =
      if used.length ≤ 10 then .ok (value used % 2 ^ 64, rest) else .error .overflow := by
  split_ifs with hlen
  · have hread := getVarintFrom_number (v := 0) (k := 0) h (by decide) (by omega) rest
    simpa [getVarint] using hread
  · exact getVarintFrom_long (k := 0) h (by omega) rest

theorem getVarint_eq_ok (h : getVarint bytes = .ok (n, rest)) :
    ∃ used, Number used ∧ bytes = used ++ rest ∧ used.length ≤ 10 ∧ n = value used % 2 ^ 64 := by
  obtain ⟨used, hused, rfl⟩ := exists_number_of_getVarintFrom h
  rw [getVarint_number hused] at h
  split_ifs at h with hlen
  exact ⟨used, hused, rfl, hlen, (Prod.mk.inj (Except.ok.inj h)).1.symm⟩

theorem putVarint_length (hk : 0 < k) (hv : v < 128 ^ k) : (putVarint v).length ≤ k := by
  induction k generalizing v with
  | zero => cases hk
  | succ k ih =>
    rw [putVarint]
    split_ifs with hbig
    · have hdiv : v >>> 7 = v / 128 := Nat.shiftRight_eq_div_pow v 7
      have hlt : v >>> 7 < 128 ^ k := by
        rw [hdiv]
        exact Nat.div_lt_of_lt_mul (by rwa [Nat.pow_succ, Nat.mul_comm] at hv)
      have hpos : 0 < k := by
        rcases Nat.eq_zero_or_pos k with rfl | hpos
        · omega
        · exact hpos
      exact Nat.succ_le_succ (ih hpos hlt)
    · simp

theorem getVarint_putVarint (hv : v ≤ u64Max) (rest : List UInt8) :
    getVarint (putVarint v ++ rest) = .ok (v, rest) := by
  obtain ⟨hnum, hval⟩ := putVarint_spec v
  have hlt : v < 2 ^ 64 := Nat.lt_of_le_of_lt hv (by decide)
  have hlen : (putVarint v).length ≤ 10 :=
    putVarint_length (by decide) (hlt.trans_le (by decide))
  rw [getVarint_number hnum, if_pos hlen, hval, Nat.mod_eq_of_lt hlt]

/-! ### A set written and read -/

namespace RangeSet

/-- The loop of `encode`, with the end of the span before; `none` when `s - prev_end` goes below
zero. -/
def encodeFrom : ℕ → List (ℕ × ℕ) → Option (List UInt8)
  | _, [] => some []
  | prevEnd, (s, l) :: rest =>
    if s < prevEnd then none
    else (encodeFrom (s + l) rest).map fun out => putVarint (s - prevEnd) ++ (putVarint l ++ out)

/-- `RangeSet::encode`. -/
def encode (r : RangeSet) : Option (List UInt8) := encodeFrom 0 r.spans

variable {r : RangeSet} {spans : List (ℕ × ℕ)} {prevEnd : ℕ}

theorem decodeFrom_encodeFrom (hord : Ranges.Ordered spans) (hpos : Positive spans)
    (hmax : ∀ p ∈ spans, p.1 + p.2 ≤ u64Max) (hprev : ∀ p ∈ spans, prevEnd ≤ p.1) :
    ∃ out, encodeFrom prevEnd spans = some out ∧ decodeFrom prevEnd out = .ok spans := by
  induction spans generalizing prevEnd with
  | nil => exact ⟨[], rfl, decodeFrom_nil prevEnd⟩
  | cons p spans ih =>
    obtain ⟨s, l⟩ := p
    obtain ⟨hp, hord⟩ := ordered_cons.1 hord
    obtain ⟨hl, hpos⟩ := List.forall_mem_cons.1 hpos
    obtain ⟨hend, hmax⟩ := List.forall_mem_cons.1 hmax
    obtain ⟨hs, -⟩ := List.forall_mem_cons.1 hprev
    obtain ⟨out, henc, hdec⟩ := ih hord hpos hmax hp
    refine ⟨putVarint (s - prevEnd) ++ (putVarint l ++ out), ?_, ?_⟩
    · simp only [encodeFrom]
      rw [if_neg (Nat.not_lt.2 hs), henc, Option.map_some]
    · have hstart : prevEnd + (s - prevEnd) = s := Nat.add_sub_cancel' hs
      have hgap : getVarint (putVarint (s - prevEnd) ++ (putVarint l ++ out)) =
          .ok (s - prevEnd, putVarint l ++ out) := getVarint_putVarint (by omega) _
      have hlen : getVarint (putVarint l ++ out) = .ok (l, out) :=
        getVarint_putVarint (by omega) out
      rw [← hstart] at hdec
      have hread := decodeFrom_cons hgap hlen hl (by omega) hdec
      rwa [hstart] at hread

/-- **The checkpoint codec.**  A canonical set is written without going below zero, what is written
is read as the same set, and no two sets are written alike. -/
theorem encode_roundtrip (h : r.Canonical) (hmax : ∀ p ∈ r.spans, p.1 + p.2 ≤ u64Max) :
    (∃ out, r.encode = some out ∧ decode out = .ok r) ∧
      ∀ r' : RangeSet, r'.Canonical → (∀ p ∈ r'.spans, p.1 + p.2 ≤ u64Max) →
        r.encode = r'.encode → r = r' := by
  have hread : ∀ r : RangeSet, r.Canonical → (∀ p ∈ r.spans, p.1 + p.2 ≤ u64Max) →
      ∃ out, r.encode = some out ∧ decode out = .ok r := by
    intro r h hmax
    obtain ⟨out, henc, hdec⟩ :=
      decodeFrom_encodeFrom h.ordered.1 h.2 hmax fun p _ => Nat.zero_le p.1
    exact ⟨out, henc, by rw [decode, hdec]; rfl⟩
  refine ⟨hread r h hmax, fun r' h' hmax' heq => ?_⟩
  obtain ⟨out, henc, hdec⟩ := hread r h hmax
  obtain ⟨out', henc', hdec'⟩ := hread r' h' hmax'
  obtain rfl : out = out' := Option.some.inj (henc.symm.trans (heq.trans henc'))
  exact Except.ok.inj (hdec.symm.trans hdec')

/-- The last two bytes of the largest file. -/
theorem encode_roundtrip_top :
    ∃ out, (RangeSet.mk [(0, 1), (u64Max - 2, 2)]).encode = some out ∧
      decode out = .ok ⟨[(0, 1), (u64Max - 2, 2)]⟩ :=
  (encode_roundtrip (r := ⟨[(0, 1), (u64Max - 2, 2)]⟩) (by decide) (by decide)).1

end RangeSet

/-! ### Lost bits -/

/-- Nine bytes that go on and a last one above 1: the bits from the 64th on are lost. -/
def LosesBits (bytes : List UInt8) : Prop :=
  ∃ init b rest, bytes = init ++ b :: rest ∧ init.length = 9 ∧ (∀ x ∈ init, 128 ≤ x.toNat) ∧
    2 ≤ b.toNat ∧ b.toNat < 128

/-- `get_varint` is exact or fails: a value is the sum of the digits that are consumed, and a sum
that is too large is an overflow. -/
structure VarintExact (bytes : List UInt8) : Prop where
  sum : ∀ v rest, getVarint bytes = .ok (v, rest) → ∃ used, bytes = used ++ rest ∧ v = value used
  overflow : ∀ used rest, bytes = used ++ rest → Number used → 2 ^ 64 ≤ value used →
    getVarint bytes = .error .overflow

theorem losesBits_append (h : Number used) (rest : List UInt8) :
    LosesBits (used ++ rest) ↔ used.length = 10 ∧ 2 ^ 64 ≤ value used := by
  constructor
  · rintro ⟨init, b, rest', heq, hlen, hinit, hb, hlast⟩
    rw [List.append_cons] at heq
    obtain ⟨rfl, -⟩ := h.unique (number_iff.2 ⟨init, b, rfl, hinit, hlast⟩) heq
    have hle := (le_value_iff (a := init) (x := b) 2).2 (by omega)
    rw [hlen] at hle
    exact ⟨by simp [hlen], hle⟩
  · rintro ⟨hlen, hval⟩
    obtain ⟨init, b, rfl, hinit, hb⟩ := number_iff.1 h
    have hlen : init.length = 9 := by simpa using hlen
    have hle := (le_value_iff (a := init) (x := b) 2).1 (by rw [hlen]; exact hval)
    exact ⟨init, b, rest, (List.append_cons ..).symm, hlen, hinit, by omega, hb⟩

theorem not_losesBits_nil (pos : ℕ) : ¬LosesBits (([] : List UInt8).drop pos) := by
  rintro ⟨init, b, rest, heq, -⟩
  simp at heq

/-- A number that is read is below `2 ^ 64` unless bits are lost. -/
theorem value_lt_iff (h : Number used) (hlen : used.length ≤ 10) (rest : List UInt8) :
    value used < 2 ^ 64 ↔ ¬LosesBits (used ++ rest) := by
  rw [losesBits_append h]
  rcases Nat.lt_or_ge used.length 10 with hshort | hlong
  · have hpow : (128 : ℕ) ^ used.length ≤ 128 ^ 9 := Nat.pow_le_pow_right (by decide) (by omega)
    have hlt := value_lt used
    exact iff_of_true (by omega) (by omega)
  · rw [not_and, Nat.not_le]
    exact ⟨fun hlt _ => hlt, fun hlt => hlt (by omega)⟩

theorem varintExact_iff (bytes : List UInt8) : VarintExact bytes ↔ ¬LosesBits bytes := by
  constructor
  · rintro hexact ⟨init, b, rest, rfl, hlen, hinit, hb, hlast⟩
    have hnum : Number (init ++ [b]) := number_iff.2 ⟨init, b, rfl, hinit, hlast⟩
    have hten : (init ++ [b]).length = 10 := by simp [hlen]
    rw [List.append_cons] at hexact
    -- the number is too large, and is read all the same
    have hbig := (le_value_iff (a := init) (x := b) 2).2 (by omega)
    rw [hlen] at hbig
    have hover := hexact.overflow _ rest rfl hnum hbig
    rw [getVarint_number hnum, if_pos hten.le] at hover
    cases hover
  · intro hkeep
    constructor
    · intro v rest hread
      obtain ⟨used, hnum, rfl, hlen, rfl⟩ := getVarint_eq_ok hread
      exact ⟨used, rfl, Nat.mod_eq_of_lt ((value_lt_iff hnum hlen rest).2 hkeep)⟩
    · rintro used rest rfl hnum hbig
      rw [getVarint_number hnum, if_neg]
      intro hlen
      exact absurd ((value_lt_iff hnum hlen rest).2 hkeep) (Nat.not_lt.2 hbig)

theorem forall_not_losesBits (h : Number used) (hlen : used.length ≤ 10) (rest : List UInt8) :
    (∀ pos, ¬LosesBits ((used ++ rest).drop pos)) ↔
      value used < 2 ^ 64 ∧ ∀ pos, ¬LosesBits (rest.drop pos) := by
  rw [value_lt_iff h hlen rest]
  constructor
  · intro hall
    refine ⟨hall 0, fun pos => ?_⟩
    have hpos := hall (used.length + pos)
    rwa [List.drop_length_add_append] at hpos
  · rintro ⟨hfirst, hrest⟩ pos
    rcases Nat.lt_or_ge pos used.length with hlt | hge
    · rcases Nat.eq_zero_or_pos pos with rfl | hpos
      · exact hfirst
      · -- the rest of the number has less than ten bytes
        rw [List.drop_append_of_le_length hlt.le, losesBits_append (h.drop hlt), List.length_drop]
        omega
    · obtain ⟨n, rfl⟩ := Nat.exists_eq_add_of_le hge
      rw [List.drop_length_add_append]
      exact hrest n

namespace RangeSet

variable {spans : List (ℕ × ℕ)} {prevEnd : ℕ}

/-- The spans that bytes denote: pairs of numbers of any size, the gap from the end of the span
before and the length. -/
inductive Denotes : ℕ → List UInt8 → List (ℕ × ℕ) → Prop
  | nil (prevEnd : ℕ) : Denotes prevEnd [] []
  | cons {prevEnd : ℕ} {gap len rest : List UInt8} {spans : List (ℕ × ℕ)} (hgap : Number gap)
      (hlen : Number len) (h : Denotes (prevEnd + value gap + value len) rest spans) :
      Denotes prevEnd (gap ++ (len ++ rest)) ((prevEnd + value gap, value len) :: spans)

theorem Denotes.exists_cons {s l : ℕ} (h : Denotes prevEnd bytes ((s, l) :: spans)) :
    ∃ gap len rest, bytes = gap ++ (len ++ rest) ∧ Number gap ∧ Number len ∧
      s = prevEnd + value gap ∧ l = value len ∧
      Denotes (prevEnd + value gap + value len) rest spans := by
  cases h with
  | cons hgap hlen h => exact ⟨_, _, _, rfl, hgap, hlen, rfl, rfl, h⟩

/-- What is accepted is what the bytes denote unless bits are lost. -/
theorem denotes_iff (h : decodeFrom prevEnd bytes = .ok spans) :
    Denotes prevEnd bytes spans ↔ ∀ pos, ¬LosesBits (bytes.drop pos) := by
  refine decodeFrom_induction (P := fun prevEnd bytes spans =>
    Denotes prevEnd bytes spans ↔ ∀ pos, ¬LosesBits (bytes.drop pos)) ?_ ?_ h
  · intro prevEnd
    exact iff_of_true (.nil prevEnd) not_losesBits_nil
  · intro prevEnd bytes _ bytes₁ _ bytes₂ spans h₁ h₂ hpos ih
    obtain ⟨gap, hgap, rfl, hgaplen, rfl⟩ := getVarint_eq_ok h₁
    obtain ⟨len, hlen, rfl, hlenlen, rfl⟩ := getVarint_eq_ok h₂
    rw [forall_not_losesBits hgap hgaplen, forall_not_losesBits hlen hlenlen]
    constructor
    · intro hden
      obtain ⟨gap', len', bytes', heq, hgap', hlen', hgapval, hlenval, hrest⟩ := hden.exists_cons
      obtain ⟨rfl, htail⟩ := hgap.unique hgap' heq
      obtain ⟨rfl, rfl⟩ := hlen.unique hlen' htail
      have hgaplt : value gap < 2 ^ 64 := by
        rw [← Nat.add_left_cancel hgapval]
        exact Nat.mod_lt _ (by decide)
      have hlenlt : value len < 2 ^ 64 := by
        rw [← hlenval]
        exact Nat.mod_lt _ (by decide)
      rw [Nat.mod_eq_of_lt hgaplt, Nat.mod_eq_of_lt hlenlt] at ih
      exact ⟨hgaplt, hlenlt, ih.1 hrest⟩
    · rintro ⟨hgaplt, hlenlt, hrest⟩
      rw [Nat.mod_eq_of_lt hgaplt, Nat.mod_eq_of_lt hlenlt] at ih ⊢
      exact .cons hgap hlen (ih.2 hrest)

end RangeSet

/-- **Exact or an error.**  At any place in the bytes `get_varint` is exact or fails just when no
nine bytes that go on are followed by one from 2 to 127; and a set that `decode` accepts is the one
that the bytes denote just when there is no such place. -/
theorem varint_exact_iff (bytes : List UInt8) :
    (∀ pos, VarintExact (bytes.drop pos) ↔ ¬LosesBits (bytes.drop pos)) ∧
      ∀ r, RangeSet.decode bytes = .ok r →
        (RangeSet.Denotes 0 bytes r.spans ↔ ∀ pos, ¬LosesBits (bytes.drop pos)) := by
  refine ⟨fun pos => varintExact_iff _, fun r h => ?_⟩
  unfold RangeSet.decode at h
  cases hd : RangeSet.decodeFrom 0 bytes with
  | error e => rw [hd] at h; cases h
  | ok spans =>
    rw [hd] at h
    obtain rfl := Except.ok.inj h
    exact RangeSet.denotes_iff hd

/-- The number `2 ^ 64 - 2` in ten bytes. -/
def largestGap : List UInt8 := [0xfe, 0xff, 0xff, 0xff, 0xff, 0xff, 0xff, 0xff, 0xff, 0x01]

/-- The tenth byte is read when it is 1. -/
theorem varint_exact_largest :
    ∃ r, RangeSet.decode (largestGap ++ [0x01]) = .ok r ∧
      RangeSet.Denotes 0 (largestGap ++ [0x01]) r.spans := by
  have h₁ : getVarint (largestGap ++ [0x01]) = .ok (u64Max - 1, [0x01]) := by decide
  have h₂ : getVarint [0x01] = .ok (1, []) := by decide
  have hgap : Number largestGap := by
    refine number_iff.2 ⟨0xfe :: List.replicate 8 0xff, 0x01, rfl, ?_, by decide⟩
    refine List.forall_mem_cons.2 ⟨by decide, fun y hy => ?_⟩
    rw [List.eq_of_mem_replicate hy]
    decide
  have hlen : Number [0x01] := .last (by decide)
  have hread : RangeSet.decode (largestGap ++ [0x01]) = .ok ⟨[(0 + (u64Max - 1), 1)]⟩ := by
    rw [RangeSet.decode, RangeSet.decodeFrom_cons h₁ h₂ (by decide) (by decide)
      (RangeSet.decodeFrom_nil _)]
    rfl
  refine ⟨_, hread, ((varint_exact_iff _).2 _ hread).2 ?_⟩
  rw [forall_not_losesBits hgap (by decide)]
  refine ⟨by decide, ?_⟩
  rw [← List.append_nil [0x01], forall_not_losesBits hlen (by decide)]
  exact ⟨by decide, not_losesBits_nil⟩

/-- The number `2 ^ 64` in ten bytes. -/
def tooLarge : List UInt8 := [0x80, 0x80, 0x80, 0x80, 0x80, 0x80, 0x80, 0x80, 0x80, 0x02]

/-- It is read as 0, and a gap of that size is no gap. -/
theorem varint_drops_bits :
    (∃ v rest, getVarint tooLarge = .ok (v, rest) ∧
      ¬∃ used, tooLarge = used ++ rest ∧ v = value used) ∧
    ∃ r, RangeSet.decode (tooLarge ++ [0x01]) = .ok r ∧
      ¬RangeSet.Denotes 0 (tooLarge ++ [0x01]) r.spans := by
  have h₁ : getVarint (tooLarge ++ [0x01]) = .ok (0, [0x01]) := by decide
  have h₂ : getVarint [0x01] = .ok (1, []) := by decide
  have hread : RangeSet.decode (tooLarge ++ [0x01]) = .ok ⟨[(0 + 0, 1)]⟩ := by
    rw [RangeSet.decode, RangeSet.decodeFrom_cons h₁ h₂ (by decide) (by decide)
      (RangeSet.decodeFrom_nil _)]
    rfl
  refine ⟨⟨0, [], by decide, ?_⟩, _, hread, fun hden => ?_⟩
  · rintro ⟨used, heq, hval⟩
    rw [List.append_nil] at heq
    rw [← heq] at hval
    exact absurd hval (by decide)
  · obtain ⟨gap, len, rest, heq, hgap, -, hval, -⟩ := hden.exists_cons
    have hnum : Number tooLarge := by
      refine number_iff.2 ⟨List.replicate 9 0x80, 0x02, rfl, fun y hy => ?_, by decide⟩
      rw [List.eq_of_mem_replicate hy]
      decide
    obtain ⟨rfl, -⟩ := hnum.unique hgap heq
    exact absurd hval (by decide)

end SwiftLoad
